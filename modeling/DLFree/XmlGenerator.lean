/-
**Random topologies: `xml/generator.c`.**

The generator walks at random: an event opens a switch, writes a host or closes the innermost open
element, and a host is written once for each number below `nnodes`.  It keeps the open elements on a
stack, and what it writes is the word of tags that the parser will read; the blanks at the start of
its lines are left out.  `long_vector_t` is a list whose last element is its top.

What `%.1f` prints and `%f` scans is given by `FloatText`; numbers are exact apart from that.
`nnodes` is an `int`, so every `NODE:%d` fits into `hostname`.

Main definitions:

* `FloatText` — the texts of numbers, and what is scanned of them;
* `XmlGenerator` — the local variables of `xml_topology_generate`;
* `xmlGenerateRound`, `xmlGenerateRounds` — the loop of `xml_topology_generate`.

Main results:

* `Generating.round` — what one round keeps of the document and of the parser that reads it;
* `xmlTopologyGenerate_ends` — from every state events lead to the end;
* `xmlTopologyGenerate_valid` — **the document is well nested, and the parser builds of it a tree in
  which the path between two hosts does not run over the root**, and has positive width unless
  bandwidths may be printed as `0.0`.
-/

import DLFree.XmlParser
import Mathlib.Tactic.Linarith
import Mathlib.Tactic.Positivity

set_option relaxedAutoImplicit false
set_option autoImplicit false

namespace DLFree

open Nesting TreePaths

/-! ### The code -/

/-- What `%f` scans of a number that `%.1f` has printed: the nearest tenth, or the even one of the
two nearest. -/
def printfTenth (q : ℚ) : ℚ := printfRound (10 * q) / 10

/-- The texts of numbers: what `%.1f` prints, and what `%f` scans of a text. -/
structure FloatText where
  print : ℚ → String
  scan : String → Option ℚ
  scan_print : ∀ q, scan (print q) = some (printfTenth q)

/-- `enum xml_topology_generator_tags`. -/
inductive XmlGeneratorTag
  | cluster
  | switch
  | node
  deriving DecidableEq, Repr

/-- The local variables of `xml_topology_generate`, what it has written, and the number of calls of
`rand`. -/
structure XmlGenerator where
  written : List (Tag XmlElement String)
  elemstack : List XmlGeneratorTag
  c : ℕ
  nodeAdded : Bool
  calls : ℕ
  deriving DecidableEq, Repr

/-- `RAND_MAX`. -/
def randMax : ℕ := 2147483647

/-- `push_element`. -/
def pushElement (text : FloatText) (type : XmlGeneratorTag) (band : ℚ) (hostname : String)
    (gen : XmlGenerator) : XmlGenerator :=
  match type with
  | .cluster =>
      { gen with
        written := gen.written ++ [Tag.start ⟨"CLUSTER", []⟩]
        elemstack := gen.elemstack ++ [type] }
  | .switch =>
      { gen with
        written := gen.written ++ [Tag.start ⟨"SWITCH", [("bandwidth", text.print band)]⟩]
        elemstack := gen.elemstack ++ [type] }
  | .node =>
      { gen with
        written := gen.written ++
          [Tag.start ⟨"NODE", [("bandwidth", text.print band), ("hostname", hostname)]⟩,
            Tag.finish "NODE"] }

/-- `pop_element`. -/
def popElement (gen : XmlGenerator) : Except Abort XmlGenerator :=
  match gen.elemstack.getLast? with
  | none => Except.error Abort.assertion
  | some type =>
      let gen := { gen with elemstack := gen.elemstack.dropLast }
      match type with
      | .cluster => Except.ok { gen with written := gen.written ++ [Tag.finish "CLUSTER"] }
      | .switch => Except.ok { gen with written := gen.written ++ [Tag.finish "SWITCH"] }
      | .node => Except.ok gen

/-- The bandwidth that `rand() = r` gives. -/
def xmlGenerateBand (minBand maxBand : ℚ) (r : ℕ) : ℚ :=
  (r : ℚ) / randMax * (maxBand - minBand) + minBand

/-- `xml_topology_generate` before its loop. -/
def xmlGenerateInit (text : FloatText) : XmlGenerator :=
  pushElement text .switch (-2) "" (pushElement text .cluster (-2) "" ⟨[], [], 0, false, 0⟩)

/-- One round of the loop of `xml_topology_generate`; nothing happens after its end. -/
def xmlGenerateRound (text : FloatText) (nnodes : ℕ) (minBand maxBand : ℚ) (rand : ℕ → ℕ)
    (gen : XmlGenerator) : Except Abort XmlGenerator :=
  if gen.elemstack.isEmpty then Except.ok gen
  else
    let event := rand gen.calls % 3
    let gen := { gen with calls := gen.calls + 1 }
    if event = 0 then
      if gen.c = nnodes then Except.ok gen
      else
        let hostname := "NODE:" ++ toString gen.c
        let band := xmlGenerateBand minBand maxBand (rand gen.calls)
        Except.ok (pushElement text .node band hostname
          { gen with c := gen.c + 1, nodeAdded := true, calls := gen.calls + 1 })
    else if event = 1 then
      if gen.c = nnodes then Except.ok gen
      else
        let band := xmlGenerateBand minBand maxBand (rand gen.calls)
        Except.ok (pushElement text .switch band "SWITCH"
          { gen with nodeAdded := false, calls := gen.calls + 1 })
    else if gen.nodeAdded = false then Except.ok gen
    else if gen.elemstack.length ≤ 2 ∧ gen.c < nnodes then Except.ok gen
    else popElement gen

/-- So many rounds of the loop. -/
def xmlGenerateRounds (text : FloatText) (nnodes : ℕ) (minBand maxBand : ℚ) (rand : ℕ → ℕ) :
    ℕ → XmlGenerator → Except Abort XmlGenerator
  | 0, gen => Except.ok gen
  | k + 1, gen => do
      let gen ← xmlGenerateRound text nnodes minBand maxBand rand gen
      xmlGenerateRounds text nnodes minBand maxBand rand k gen

/-! ### Host names -/

/-- The host name of the `c`-th host. -/
def genHostname (c : ℕ) : String := "NODE:" ++ toString c

theorem utf8ByteSize_ascii {l : List Char} (h : ∀ c ∈ l, c.utf8Size = 1) :
    (String.ofList l).utf8ByteSize = l.length := by
  induction l with
  | nil => rfl
  | cons c l ih =>
      rw [String.ofList_cons, String.utf8ByteSize_append, String.utf8ByteSize_singleton,
        ih fun d hd => h d (List.mem_cons_of_mem _ hd), h c List.mem_cons_self, List.length_cons,
        Nat.add_comm]

theorem isSpace_digit {c : Char} (h : c.isDigit = true) : isSpace c = false ∧ c.utf8Size = 1 := by
  have h0 : ('0').val.toNat = 48 := rfl
  have h9 : ('9').val.toNat = 57 := rfl
  have h127 : (127 : UInt32).toNat = 127 := rfl
  simp only [Char.isDigit, Bool.and_eq_true, decide_eq_true_eq, UInt32.le_iff_toNat_le] at h
  rw [Char.utf8Size_eq_one_iff, UInt32.le_iff_toNat_le, isSpace, Bool.or_eq_false_iff,
    Bool.and_eq_false_iff]
  refine ⟨⟨?_, Or.inr ?_⟩, by omega⟩
  · rw [decide_eq_false_iff_not]
    rintro rfl
    exact absurd h.1 (by decide)
  · rw [decide_eq_false_iff_not, Char.toNat]
    omega

theorem isDigit_of_mem_toString {n : ℕ} {c : Char} (h : c ∈ (toString n).toList) :
    c.isDigit = true := by
  rw [Nat.toString_eq_repr, Nat.toList_repr] at h
  exact Nat.isDigit_of_mem_toDigits (by decide) (by decide) h

theorem genHostname_word (c : ℕ) : XmlWord (genHostname c) where
  ne h := by
    have := congrArg String.toList h
    rw [genHostname, String.toList_append] at this
    simp at this
  noSpace d hd := by
    rw [genHostname, String.toList_append, List.mem_append] at hd
    rcases hd with hd | hd
    · exact (@XmlWord.of_all "NODE:" (by decide) (by decide)).noSpace d hd
    · exact (isSpace_digit (isDigit_of_mem_toString hd)).1

/-- The number of an `int` fits into `nodename` behind `NODE:`. -/
theorem genHostname_size {c : ℕ} (hc : c < 2 ^ 31) : (genHostname c).utf8ByteSize < 20 := by
  have hdigits : (toString c).utf8ByteSize = (Nat.toDigits 10 c).length := by
    rw [Nat.toString_eq_ofList_toDigits]
    refine utf8ByteSize_ascii fun d hd => (isSpace_digit ?_).2
    exact Nat.isDigit_of_mem_toDigits (by decide) (by decide) hd
  have hlen : (Nat.toDigits 10 c).length ≤ 10 := by
    rw [Nat.length_toDigits_le_iff (by decide) (by decide)]
    omega
  have hnode : ("NODE:").utf8ByteSize = 5 := rfl
  rw [genHostname, String.utf8ByteSize_append]
  omega

theorem genHostname_host (c : ℕ) : isHostName (genHostname c) = true := by
  have hsw : nameStarts "SW" (genHostname c) = false := by
    rw [nameStarts, genHostname, String.toList_append]
    rfl
  have hroot : nameStarts "ROOT" (genHostname c) = false := by
    rw [nameStarts, genHostname, String.toList_append]
    rfl
  rw [isHostName, hsw, hroot]
  rfl

theorem genHostname_injective : Function.Injective genHostname := fun _ _ h =>
  toString_injective ((String.append_right_inj _).1 h)

/-! ### The parser on what has been written -/

/-- The parser after the tags that the generator has written: `es` are the elements under the
`CLUSTER`, and all of them but the first lie under the first. -/
structure GenParser (minBand : ℚ) (es : List XmlElement) (parser : XmlTopologyParser) : Prop where
  switchId : parser.switchId = es.foldl xmlNextSwitch 0
  names : parser.topology.nodes.map XmlTopNode.name = "ROOT" :: xmlNodeNames 0 es
  shape : parser.topology.Shape
  root : ∀ e ∈ parser.topology.edges, e.n0 = 0 → e.n1 = 1
  width : ∀ e ∈ parser.topology.edges,
    e.n0 = 0 ∨ ∃ band, minBand ≤ band ∧ e.width = printfTenth band
  tail : ∀ v ∈ parser.nodeStack.tail, 1 ≤ v
  lt : ∀ v ∈ parser.nodeStack, v < parser.topology.nodes.length

namespace GenParser

variable {minBand : ℚ} {es : List XmlElement} {parser : XmlTopologyParser} {stack : List ℕ}
  {parent : ℕ}

/-- Under the `CLUSTER` and the first `SWITCH`, no node has the root for its parent. -/
theorem exists_parent (h : GenParser minBand es parser) (hlen : 2 ≤ parser.nodeStack.length) :
    ∃ stack parent, parser.nodeStack = stack ++ [parent] ∧ 1 ≤ parent := by
  rcases List.eq_nil_or_concat parser.nodeStack with hnil | ⟨stack, parent, hstack⟩
  · rw [hnil] at hlen
    simp at hlen
  · rw [List.concat_eq_append] at hstack
    refine ⟨stack, parent, hstack, h.tail parent ?_⟩
    have hne : stack ≠ [] := by
      rintro rfl
      rw [hstack] at hlen
      simp at hlen
    rw [hstack, List.tail_append_of_ne_nil hne]
    exact List.mem_append_right _ List.mem_cons_self

theorem start (h : GenParser minBand es parser) (e : XmlElement)
    (hstack : parser.nodeStack = stack ++ [parent]) (hpos : 1 ≤ parent) {band : ℚ}
    (hband : minBand ≤ band) :
    GenParser minBand (es ++ [e]) (parser.opened (xmlNextSwitch parser.switchId e) parent
      (xmlNodeName parser.switchId e) (printfTenth band)) := by
  have hparent : parent < parser.topology.nodes.length := h.lt parent (by simp [hstack])
  have hgrow := XmlTop.Grown.addEdge h.shape hparent (xmlNodeName parser.switchId e) 1
    (printfTenth band)
  have hlen := hgrow.length_eq
  have hedge : ∀ x ∈ (xmlTopologyAddEdge parser.topology parent (xmlNodeName parser.switchId e) 1
      (printfTenth band)).1.edges, x ∈ parser.topology.edges ∨
        x = ⟨parent, parser.topology.nodes.length, 1, printfTenth band⟩ := by
    intro x hx
    simpa [xmlTopologyAddEdge] using hx
  refine ⟨?_, ?_, hgrow.shape, ?_, ?_, ?_, ?_⟩
  · rw [List.foldl_append, ← h.switchId]
    rfl
  · rw [xmlNodeNames_append, ← h.switchId, ← List.cons_append, ← h.names]
    exact hgrow.names_eq
  · intro x hx hx0
    rcases hedge x hx with hx | rfl
    · exact h.root x hx hx0
    · exact absurd hx0 (by simp only; omega)
  · intro x hx
    rcases hedge x hx with hx | rfl
    · exact h.width x hx
    · exact Or.inr ⟨band, hband, rfl⟩
  · intro v hv
    rw [XmlTopologyParser.opened, List.tail_append_of_ne_nil (by simp [hstack])] at hv
    rcases List.mem_append.1 hv with hv | hv
    · exact h.tail v hv
    · rw [List.mem_singleton.1 hv]
      exact h.shape.pos
  · intro v hv
    change v < (xmlTopologyAddEdge parser.topology parent (xmlNodeName parser.switchId e) 1
      (printfTenth band)).1.nodes.length
    rw [hlen]
    rcases List.mem_append.1 hv with hv | hv
    · have := h.lt v hv
      omega
    · rw [List.mem_singleton.1 hv]
      exact Nat.lt_succ_self _

theorem finish (h : GenParser minBand es parser) (hstack : parser.nodeStack = stack ++ [parent]) :
    GenParser minBand es { parser with nodeStack := stack } where
  switchId := h.switchId
  names := h.names
  shape := h.shape
  root := h.root
  width := h.width
  tail v hv := by
    refine h.tail v ?_
    rw [hstack, List.tail_append_of_ne_nil (List.ne_nil_of_mem (List.mem_of_mem_tail hv))]
    exact List.mem_append_left _ hv
  lt v hv := h.lt v (by rw [hstack]; exact List.mem_append_left _ hv)

end GenParser

theorem startElem_written_switch (text : FloatText) {parser : XmlTopologyParser} {stack : List ℕ}
    {parent : ℕ} (hstack : parser.nodeStack = stack ++ [parent]) (band : ℚ) :
    xmlTopologyParserStartElem text.scan parser ⟨"SWITCH", [("bandwidth", text.print band)]⟩ =
      Except.ok (parser.opened (parser.switchId + 1) parent ("SW:" ++ toString parser.switchId)
        (printfTenth band)) := by
  rw [xmlTopologyParserStartElem_switch rfl hstack, xmlSwitchAttrs, List.foldl_cons, List.foldl_nil,
    if_pos rfl, text.scan_print, Option.getD_some]

theorem startElem_written_node (text : FloatText) {parser : XmlTopologyParser} {stack : List ℕ}
    {parent : ℕ} (hstack : parser.nodeStack = stack ++ [parent]) (band : ℚ) {hostname : String}
    (hword : XmlWord hostname) (hsize : hostname.utf8ByteSize < 20) :
    xmlTopologyParserStartElem text.scan parser
        ⟨"NODE", [("bandwidth", text.print band), ("hostname", hostname)]⟩ =
      Except.ok (parser.opened parser.switchId parent hostname (printfTenth band)) := by
  refine xmlTopologyParserStartElem_node rfl ?_ hstack
  rw [xmlNodeAttrs, List.foldlM_cons, xmlNodeAttr, if_pos rfl, text.scan_print, ok_bind,
    List.foldlM_cons, xmlNodeAttr_hostname hword, if_pos hsize]
  rfl

/-! ### One round -/

/-- The name of the elements of a kind. -/
def XmlGeneratorTag.name : XmlGeneratorTag → String
  | .cluster => "CLUSTER"
  | .switch => "SWITCH"
  | .node => "NODE"

/-- The generator between two rounds: `es` are the elements under the `CLUSTER`, and `parser` has
read what has been written. -/
structure Generating (text : FloatText) (nnodes : ℕ) (minBand : ℚ) (gen : XmlGenerator)
    (es : List XmlElement) (parser : XmlTopologyParser) : Prop where
  le : gen.c ≤ nnodes
  added : gen.c = nnodes → gen.nodeAdded = true
  depth : gen.c < nnodes → 2 ≤ gen.elemstack.length
  kinds : XmlGeneratorTag.node ∉ gen.elemstack
  nested : nest XmlElement.name [] gen.written =
    some (gen.elemstack.map XmlGeneratorTag.name).reverse
  opened : opened gen.written = ⟨"CLUSTER", []⟩ :: es
  hostnames : xmlHostnames es = (List.range gen.c).map genHostname
  fits : ∀ e ∈ es, e.Fits
  run : xmlTopologyParserParse text.scan gen.written = Except.ok parser
  parsed : GenParser minBand es parser
  length : parser.nodeStack.length = gen.elemstack.length

/-- What the generator keeps, for some elements and some parser. -/
def XmlGenerator.Ok (text : FloatText) (nnodes : ℕ) (minBand : ℚ) (gen : XmlGenerator) : Prop :=
  ∃ es parser, Generating text nnodes minBand gen es parser

section Round

variable {text : FloatText} {nnodes : ℕ} {minBand band : ℚ} {gen : XmlGenerator}
  {es : List XmlElement} {parser : XmlTopologyParser}

theorem xmlTopologyParserParse_append (scanFloat : String → Option ℚ)
    (u w : List (Tag XmlElement String)) :
    xmlTopologyParserParse scanFloat (u ++ w) =
      xmlTopologyParserParse scanFloat u >>= fun parser =>
        w.foldlM (xmlTopologyParserTag scanFloat) parser :=
  List.foldlM_append

theorem fits_switch (attrs : List (String × String)) (h : (attrs.map Prod.fst).Nodup) :
    (⟨"SWITCH", attrs⟩ : XmlElement).Fits where
  kind := Or.inl rfl
  nodup := h
  hostname h := absurd h (by simp)

theorem fits_node (band : String) {c : ℕ} (hc : c < 2 ^ 31) :
    (⟨"NODE", [("bandwidth", band), ("hostname", genHostname c)]⟩ : XmlElement).Fits where
  kind := Or.inr rfl
  nodup := by simp
  hostname _ := ⟨genHostname c, by simp, genHostname_word c, genHostname_size hc⟩

/-- Another call of `rand` changes nothing. -/
theorem Generating.calls (h : Generating text nnodes minBand gen es parser) (calls : ℕ) :
    Generating text nnodes minBand { gen with calls := calls } es parser :=
  ⟨h.le, h.added, h.depth, h.kinds, h.nested, h.opened, h.hostnames, h.fits, h.run, h.parsed,
    h.length⟩

/-- **A new switch.** -/
theorem Generating.switch (h : Generating text nnodes minBand gen es parser) (hc : gen.c ≠ nnodes)
    (hband : minBand ≤ band) (calls : ℕ) :
    (pushElement text .switch band "SWITCH"
      { gen with nodeAdded := false, calls := calls }).Ok text nnodes minBand := by
  have hlt : gen.c < nnodes := lt_of_le_of_ne h.le hc
  have hdepth := h.depth hlt
  obtain ⟨stack, parent, hstack, hpos⟩ := h.parsed.exists_parent (by rw [h.length]; exact hdepth)
  set e : XmlElement := ⟨"SWITCH", [("bandwidth", text.print band)]⟩ with he
  have hopen := startElem_written_switch text hstack band
  refine ⟨es ++ [e], parser.opened (xmlNextSwitch parser.switchId e) parent
    (xmlNodeName parser.switchId e) (printfTenth band), ?_⟩
  refine
    { le := h.le
      added := fun hc' => absurd hc' hc
      depth := fun _ => ?_
      kinds := ?_
      nested := ?_
      opened := ?_
      hostnames := ?_
      fits := ?_
      run := ?_
      parsed := h.parsed.start e hstack hpos hband
      length := ?_ }
  · rw [pushElement, List.length_append]
    exact hdepth.trans (Nat.le_add_right _ _)
  · rw [pushElement, List.mem_append, not_or]
    exact ⟨h.kinds, by decide⟩
  · simp only [pushElement]
    rw [nest_append, h.nested, List.map_append, List.reverse_append]
    rfl
  · simp only [pushElement]
    rw [opened_append, h.opened]
    rfl
  · rw [xmlHostnames, List.filterMap_append]
    have hnone : List.filterMap XmlElement.hostname [e] = [] := rfl
    rw [hnone, List.append_nil]
    exact h.hostnames
  · intro e' he'
    rcases List.mem_append.1 he' with he' | he'
    · exact h.fits e' he'
    · rw [List.mem_singleton.1 he']
      exact fits_switch _ (List.nodup_singleton _)
  · simp only [pushElement]
    rw [xmlTopologyParserParse_append, h.run, ok_bind, List.foldlM_cons, xmlTopologyParserTag, hopen]
    rfl
  · rw [XmlTopologyParser.opened, pushElement, List.length_append, List.length_append, h.length]
    rfl

/-- **A new host.** -/
theorem Generating.host (h : Generating text nnodes minBand gen es parser) (hc : gen.c ≠ nnodes)
    (hint : nnodes < 2 ^ 31) (hband : minBand ≤ band) (calls : ℕ) :
    (pushElement text .node band (genHostname gen.c)
      { gen with c := gen.c + 1, nodeAdded := true, calls := calls }).Ok text nnodes minBand := by
  have hlt : gen.c < nnodes := lt_of_le_of_ne h.le hc
  obtain ⟨stack, parent, hstack, hpos⟩ :=
    h.parsed.exists_parent (by rw [h.length]; exact h.depth hlt)
  set e : XmlElement :=
    ⟨"NODE", [("bandwidth", text.print band), ("hostname", genHostname gen.c)]⟩ with he
  have hopen := startElem_written_node text hstack band (genHostname_word gen.c)
    (genHostname_size (hlt.trans hint))
  refine ⟨es ++ [e], { parser.opened (xmlNextSwitch parser.switchId e) parent
    (xmlNodeName parser.switchId e) (printfTenth band) with nodeStack := parser.nodeStack }, ?_⟩
  refine
    { le := hlt
      added := fun _ => rfl
      depth := fun _ => h.depth hlt
      kinds := h.kinds
      nested := ?_
      opened := ?_
      hostnames := ?_
      fits := ?_
      run := ?_
      parsed := (h.parsed.start e hstack hpos hband).finish rfl
      length := h.length }
  · simp only [pushElement]
    rw [nest_append, h.nested, Option.bind_some, nest, nest, if_pos rfl, nest]
  · simp only [pushElement]
    rw [opened_append, h.opened]
    rfl
  · have hsome : List.filterMap XmlElement.hostname [e] = [genHostname gen.c] := rfl
    have hhost := h.hostnames
    rw [xmlHostnames] at hhost
    rw [xmlHostnames, List.filterMap_append, hsome, hhost]
    simp only [pushElement]
    rw [List.range_succ, List.map_append]
    rfl
  · intro e' he'
    rcases List.mem_append.1 he' with he' | he'
    · exact h.fits e' he'
    · rw [List.mem_singleton.1 he']
      exact fits_node _ (hlt.trans hint)
  · simp only [pushElement]
    rw [xmlTopologyParserParse_append, h.run, ok_bind, List.foldlM_cons, xmlTopologyParserTag, hopen,
      ok_bind, List.foldlM_cons, xmlTopologyParserTag, XmlTopologyParser.opened,
      xmlTopologyParserEndElem_append]
    rfl

/-- **An element that closes.** -/
theorem Generating.close (h : Generating text nnodes minBand gen es parser)
    (hne : gen.elemstack ≠ []) (hdepth : gen.c < nnodes → 3 ≤ gen.elemstack.length) :
    ∃ gen', popElement gen = Except.ok gen' ∧ gen'.Ok text nnodes minBand := by
  obtain ⟨types, type, htypes⟩ : ∃ types type, gen.elemstack = types ++ [type] := by
    rcases List.eq_nil_or_concat gen.elemstack with hnil | ⟨types, type, h⟩
    · exact absurd hnil hne
    · exact ⟨types, type, by rw [h, List.concat_eq_append]⟩
  have hkind : type ≠ .node := by
    rintro rfl
    exact h.kinds (by simp [htypes])
  have hpop : popElement gen = Except.ok { gen with
      elemstack := types
      written := gen.written ++ [Tag.finish type.name] } := by
    rw [popElement, htypes, List.getLast?_append, List.dropLast_concat]
    cases type with
    | cluster => rfl
    | switch => rfl
    | node => exact absurd rfl hkind
  have hlen : gen.elemstack.length = types.length + 1 := by
    rw [htypes, List.length_append, List.length_singleton]
  obtain ⟨stack, parent, hstack⟩ : ∃ stack parent, parser.nodeStack = stack ++ [parent] := by
    rcases List.eq_nil_or_concat parser.nodeStack with hnil | ⟨stack, parent, hstack⟩
    · have := h.length
      rw [hnil, hlen] at this
      cases this
    · exact ⟨stack, parent, by rw [hstack, List.concat_eq_append]⟩
  refine ⟨_, hpop, es, { parser with nodeStack := stack }, ?_⟩
  refine
    { le := h.le
      added := h.added
      depth := fun hlt => ?_
      kinds := fun hmem => h.kinds (by rw [htypes]; exact List.mem_append_left _ hmem)
      nested := ?_
      opened := ?_
      hostnames := h.hostnames
      fits := h.fits
      run := ?_
      parsed := h.parsed.finish hstack
      length := ?_ }
  · have := hdepth hlt
    simp only
    omega
  · have hnested := h.nested
    rw [htypes, List.map_append, List.reverse_append] at hnested
    rw [nest_append, hnested]
    exact if_pos rfl
  · simp only
    rw [opened_append, h.opened]
    exact List.append_nil _
  · have hparser : parser = ⟨parser.switchId, stack ++ [parent], parser.topology⟩ := by
      rw [← hstack]
    simp only
    rw [xmlTopologyParserParse_append, h.run, ok_bind, List.foldlM_cons, xmlTopologyParserTag]
    conv_lhs => rw [hparser, xmlTopologyParserEndElem_append]
    rfl
  · have := h.length
    rw [hstack, htypes, List.length_append, List.length_append] at this
    simpa using this

theorem le_xmlGenerateBand {maxBand : ℚ} (hle : minBand ≤ maxBand) (r : ℕ) :
    minBand ≤ xmlGenerateBand minBand maxBand r := by
  have hratio : (0 : ℚ) ≤ (r : ℚ) / randMax := by positivity
  have := mul_nonneg hratio (sub_nonneg.2 hle)
  rw [xmlGenerateBand]
  linarith

/-- **One round keeps the document and the parser.** -/
theorem Generating.round (h : Generating text nnodes minBand gen es parser) (hint : nnodes < 2 ^ 31)
    {maxBand : ℚ} (hle : minBand ≤ maxBand) (rand : ℕ → ℕ) :
    ∃ gen', xmlGenerateRound text nnodes minBand maxBand rand gen = Except.ok gen' ∧
      gen'.Ok text nnodes minBand := by
  have hskip : ∀ calls, XmlGenerator.Ok text nnodes minBand { gen with calls := calls } :=
    fun calls => ⟨es, parser, h.calls calls⟩
  rw [xmlGenerateRound]
  by_cases hempty : gen.elemstack.isEmpty = true
  · rw [if_pos hempty]
    exact ⟨gen, rfl, es, parser, h⟩
  · have hne : gen.elemstack ≠ [] := by simpa using hempty
    rw [if_neg hempty]
    simp only
    split
    · split
      · exact ⟨_, rfl, hskip _⟩
      next hc =>
        exact ⟨_, rfl, h.host hc hint (le_xmlGenerateBand hle _) _⟩
    · split
      · split
        · exact ⟨_, rfl, hskip _⟩
        next hc =>
          exact ⟨_, rfl, h.switch hc (le_xmlGenerateBand hle _) _⟩
      · split
        · exact ⟨_, rfl, hskip _⟩
        · split
          · exact ⟨_, rfl, hskip _⟩
          next hdepth =>
            refine (h.calls _).close hne fun hlt => ?_
            by_contra hlen
            exact hdepth ⟨Nat.lt_succ_iff.1 (not_le.1 hlen), hlt⟩

/-- **Every run of the loop keeps the document and the parser.** -/
theorem XmlGenerator.Ok.rounds (h : gen.Ok text nnodes minBand) (hint : nnodes < 2 ^ 31)
    {maxBand : ℚ} (hle : minBand ≤ maxBand) (rand : ℕ → ℕ) (k : ℕ) :
    ∃ gen', xmlGenerateRounds text nnodes minBand maxBand rand k gen = Except.ok gen' ∧
      gen'.Ok text nnodes minBand := by
  induction k generalizing gen with
  | zero => exact ⟨gen, rfl, h⟩
  | succ k ih =>
      obtain ⟨es, parser, h⟩ := h
      obtain ⟨gen₁, hround, h₁⟩ := h.round hint hle rand
      rw [xmlGenerateRounds, hround, ok_bind]
      exact ih h₁

/-- The `CLUSTER` and the first `SWITCH`. -/
theorem xmlGenerateInit_ok (text : FloatText) {nnodes : ℕ} (hnnodes : 1 ≤ nnodes) (minBand : ℚ) :
    (xmlGenerateInit text).Ok text nnodes minBand := by
  set e : XmlElement := ⟨"SWITCH", [("bandwidth", text.print (-2))]⟩ with he
  set root : XmlTopologyParser := ⟨0, [0], (xmlTopologyAddNode xmlTopologyCreate "ROOT" none).1⟩
    with hroot
  have hopen := @startElem_written_switch text root [] 0 rfl (-2)
  have hgrow := XmlTop.Grown.addEdge (XmlTop.shape_root "ROOT") Nat.zero_lt_one ("SW:" ++ toString 0)
    1 (printfTenth (-2))
  refine ⟨[e], root.opened 1 0 ("SW:" ++ toString 0) (printfTenth (-2)), ?_⟩
  refine
    { le := Nat.zero_le _
      added := fun h => absurd h (by simp only [xmlGenerateInit, pushElement]; omega)
      depth := fun _ => le_refl 2
      kinds := by simp [xmlGenerateInit, pushElement]
      nested := rfl
      opened := rfl
      hostnames := rfl
      fits := ?_
      run := ?_
      parsed := ⟨rfl, hgrow.names_eq, hgrow.shape, ?_, ?_, ?_, ?_⟩
      length := rfl }
  · intro e' he'
    rw [List.mem_singleton.1 he']
    exact fits_switch _ (List.nodup_singleton _)
  · have hrun : xmlTopologyParserParse text.scan (xmlGenerateInit text).written =
        xmlTopologyParserStartElem text.scan root e >>= fun parser => Except.ok parser := rfl
    rw [hrun, hopen]
    rfl
  · intro x hx _
    rw [List.mem_singleton.1 hx]
    rfl
  · intro x hx
    rw [List.mem_singleton.1 hx]
    exact Or.inl rfl
  · intro v hv
    rw [List.mem_singleton.1 hv]
    exact le_refl 1
  · intro v hv
    change v ∈ [0, 1] at hv
    change v < 2
    simp only [List.mem_cons, List.not_mem_nil, or_false] at hv
    omega

end Round

/-! ### Events that lead to the end -/

section Ends

variable {text : FloatText} {nnodes : ℕ} {minBand maxBand : ℚ} {rand : ℕ → ℕ}

theorem xmlGenerateRounds_add (m n : ℕ) (gen : XmlGenerator) :
    xmlGenerateRounds text nnodes minBand maxBand rand (m + n) gen =
      xmlGenerateRounds text nnodes minBand maxBand rand m gen >>= fun gen' =>
        xmlGenerateRounds text nnodes minBand maxBand rand n gen' := by
  induction m generalizing gen with
  | zero => rw [Nat.zero_add, xmlGenerateRounds, ok_bind]
  | succ m ih =>
      rw [Nat.succ_add, xmlGenerateRounds, xmlGenerateRounds]
      cases xmlGenerateRound text nnodes minBand maxBand rand gen with
      | error a => rfl
      | ok gen' =>
          rw [ok_bind, ok_bind]
          exact ih gen'

/-- As long as `rand` returns `0`, hosts are written. -/
theorem rounds_host (n : ℕ) {gen : XmlGenerator} (hne : gen.elemstack ≠ [])
    (hc : gen.c + n ≤ nnodes) (hrand : ∀ i < gen.calls + 2 * n, rand i = 0) :
    ∃ gen', xmlGenerateRounds text nnodes minBand maxBand rand n gen = Except.ok gen' ∧
      gen'.elemstack = gen.elemstack ∧ gen'.c = gen.c + n ∧ gen'.calls = gen.calls + 2 * n := by
  induction n generalizing gen with
  | zero => exact ⟨gen, rfl, rfl, rfl, rfl⟩
  | succ n ih =>
      have hempty : ¬ gen.elemstack.isEmpty = true := by simpa using hne
      have hevent : rand gen.calls % 3 = 0 := by rw [hrand gen.calls (by omega)]
      have hlt : gen.c ≠ nnodes := by omega
      obtain ⟨gen', hrun, hstack, hc', hcalls⟩ := @ih
        (pushElement text .node
          (xmlGenerateBand minBand maxBand (rand (gen.calls + 1))) ("NODE:" ++ toString gen.c)
          { gen with c := gen.c + 1, nodeAdded := true, calls := gen.calls + 1 + 1 })
        hne (by simp only [pushElement]; omega)
        (fun i hi => hrand i (by simp only [pushElement] at hi; omega))
      refine ⟨gen', ?_, hstack, ?_, ?_⟩
      · rw [xmlGenerateRounds, xmlGenerateRound, if_neg hempty]
        simp only [hevent, if_true, if_neg hlt, ok_bind]
        exact hrun
      · rw [hc']
        simp only [pushElement]
        omega
      · rw [hcalls]
        simp only [pushElement]
        omega

theorem popElement_keeps {gen gen' : XmlGenerator} (h : popElement gen = Except.ok gen') :
    gen'.elemstack = gen.elemstack.dropLast ∧ gen'.c = gen.c ∧ gen'.calls = gen.calls := by
  rw [popElement] at h
  cases hlast : gen.elemstack.getLast? with
  | none =>
      rw [hlast] at h
      cases h
  | some type =>
      rw [hlast] at h
      cases type <;> cases h <;> exact ⟨rfl, rfl, rfl⟩

/-- Once all hosts are written, and as long as `rand` returns `2`, elements close. -/
theorem rounds_close (n : ℕ) {gen : XmlGenerator} (h : gen.Ok text nnodes minBand)
    (hint : nnodes < 2 ^ 31) (hle : minBand ≤ maxBand) (hn : gen.elemstack.length = n)
    (hc : gen.c = nnodes) (hrand : ∀ i, gen.calls ≤ i → rand i = 2) :
    ∃ gen', xmlGenerateRounds text nnodes minBand maxBand rand n gen = Except.ok gen' ∧
      gen'.elemstack = [] := by
  induction n generalizing gen with
  | zero => exact ⟨gen, rfl, List.length_eq_zero_iff.1 hn⟩
  | succ n ih =>
      obtain ⟨es, parser, h⟩ := h
      obtain ⟨gen₁, hround, h₁⟩ := h.round hint hle rand
      have hempty : ¬ gen.elemstack.isEmpty = true := by
        rw [List.isEmpty_iff_length_eq_zero]
        omega
      have hevent : rand gen.calls % 3 = 2 := by rw [hrand gen.calls (le_refl _)]
      have hlt : ¬ gen.c < nnodes := by omega
      -- the only thing that this event can do is to close an element
      have hpop : popElement { gen with calls := gen.calls + 1 } = Except.ok gen₁ := by
        rw [← hround, xmlGenerateRound, if_neg hempty]
        simp [hevent, h.added hc, hlt]
      obtain ⟨hstack, hc₁, hcalls⟩ := popElement_keeps hpop
      rw [xmlGenerateRounds, hround, ok_bind]
      refine ih h₁ ?_ (hc₁.trans hc) fun i hi => hrand i ?_
      · rw [hstack, List.length_dropLast]
        simp only
        omega
      · rw [hcalls] at hi
        exact (Nat.le_succ _).trans hi

/-- **From every state events lead to the end.** -/
theorem xmlTopologyGenerate_ends {gen : XmlGenerator} (h : gen.Ok text nnodes minBand)
    (hint : nnodes < 2 ^ 31) (hle : minBand ≤ maxBand) :
    ∃ rand m gen', xmlGenerateRounds text nnodes minBand maxBand rand m gen = Except.ok gen' ∧
      gen'.elemstack = [] := by
  by_cases hne : gen.elemstack = []
  · exact ⟨fun _ => 0, 0, gen, rfl, hne⟩
  · obtain ⟨n, hn⟩ : ∃ n, gen.c + n = nnodes := by
      obtain ⟨es, parser, h'⟩ := h
      exact ⟨nnodes - gen.c, Nat.add_sub_cancel' h'.le⟩
    set rand : ℕ → ℕ := fun i => if i < gen.calls + 2 * n then 0 else 2 with hrand
    obtain ⟨gen₁, hrun, hstack, hc, hcalls⟩ :=
      @rounds_host text nnodes minBand maxBand rand n gen hne hn.le (fun i hi => if_pos hi)
    obtain ⟨gen₁', hrun', h₁⟩ := h.rounds hint hle rand n
    have heq : gen₁' = gen₁ := by
      rw [hrun] at hrun'
      cases hrun'
      rfl
    subst heq
    have hclose : ∀ i, gen₁'.calls ≤ i → rand i = 2 := fun i hi => if_neg (by omega)
    obtain ⟨gen', hrun₂, hend⟩ :=
      rounds_close gen₁'.elemstack.length h₁ hint hle rfl (hc.trans hn) hclose
    refine ⟨rand, n + gen₁'.elemstack.length, gen', ?_, hend⟩
    rw [xmlGenerateRounds_add, hrun, ok_bind, hrun₂]

end Ends

/-! ### The document at the end -/

theorem printfTenth_pos {q : ℚ} (h : 1 / 20 < q) : 0 < printfTenth q := by
  have hten : 1 / 2 < 10 * q := by linarith
  have hfloor : (0 : ℤ) ≤ ⌊10 * q⌋ := Int.floor_nonneg.2 (by linarith)
  have hround : (0 : ℚ) < printfRound (10 * q) := by
    rw [printfRound]
    split
    next hfrac =>
      have hne : ⌊10 * q⌋ ≠ 0 := by
        intro h0
        rw [h0] at hfrac
        rcases hfrac with hlt | ⟨heq, -⟩
        · push_cast at hlt
          linarith
        · push_cast at heq
          linarith
      have hpos : (0 : ℤ) < ⌊10 * q⌋ := lt_of_le_of_ne hfloor hne.symm
      exact_mod_cast hpos
    next =>
      have : (0 : ℚ) ≤ (⌊10 * q⌋ : ℚ) := by exact_mod_cast hfloor
      linarith
  rw [printfTenth]
  linarith

/-- The text of a number of tenths. -/
def printTenths (n : ℤ) : String :=
  (if n < 0 then "-" else "") ++ toString (n.natAbs / 10) ++ "." ++ toString (n.natAbs % 10)

/-- The number that digits with a point between them denote. -/
def scanDigits (chars : List Char) : Option ℚ :=
  let whole := chars.takeWhile Char.isDigit
  let frac :=
    match chars.dropWhile Char.isDigit with
    | '.' :: rest => rest.takeWhile Char.isDigit
    | _ => []
  if (whole ++ frac).isEmpty then none
  else some ((Nat.ofDigitChars 10 (whole ++ frac) 0 : ℚ) / (10 ^ frac.length : ℕ))

/-- A sign and digits, as `%.1f` prints them; the other notations of `%f` are left out. -/
def scanDecimal (text : String) : Option ℚ :=
  let chars := text.toList.dropWhile isSpace
  if chars.head? = some '-' then (scanDigits chars.tail).map fun q => -q
  else if chars.head? = some '+' then scanDigits chars.tail
  else scanDigits chars

theorem printfRound_int (q : ℚ) : ∃ n : ℤ, printfRound q = n := by
  rw [printfRound]
  split
  · exact ⟨_, rfl⟩
  · exact ⟨⌊q⌋ + 1, by push_cast; rfl⟩

theorem scanDigits_print (n : ℕ) :
    scanDigits ((toString (n / 10)).toList ++ '.' :: (toString (n % 10)).toList) =
      some ((n : ℚ) / 10) := by
  have hdigit : ∀ m : ℕ, ∀ c ∈ Nat.toDigits 10 m, c.isDigit = true := fun m c hc =>
    Nat.isDigit_of_mem_toDigits (by decide) (by decide) hc
  have hdot : ('.').isDigit = false := by decide
  have hlast : Nat.toDigits 10 (n % 10) = [(n % 10).digitChar] :=
    Nat.toDigits_of_lt_base (Nat.mod_lt _ (by decide))
  have htake : List.takeWhile Char.isDigit
      (Nat.toDigits 10 (n / 10) ++ '.' :: [(n % 10).digitChar]) = Nat.toDigits 10 (n / 10) := by
    rw [List.takeWhile_append_of_pos (hdigit _), List.takeWhile_cons_of_neg (by simp [hdot]),
      List.append_nil]
  have hdrop : List.dropWhile Char.isDigit
      (Nat.toDigits 10 (n / 10) ++ '.' :: [(n % 10).digitChar]) = '.' :: [(n % 10).digitChar] := by
    rw [List.dropWhile_append_of_pos (hdigit _), List.dropWhile_cons_of_neg (by simp [hdot])]
  have hfrac : List.takeWhile Char.isDigit [(n % 10).digitChar] = [(n % 10).digitChar] :=
    List.takeWhile_eq_self_iff.2 fun c hc => hdigit (n % 10) c (by rw [hlast]; exact hc)
  have hvalue : Nat.ofDigitChars 10 (Nat.toDigits 10 (n / 10) ++ [(n % 10).digitChar]) 0 = n := by
    rw [Nat.ofDigitChars_append, Nat.ofDigitChars_ten_toDigits,
      Nat.ofDigitChars_cons_digitChar_of_lt_ten (Nat.mod_lt _ (by decide)), Nat.ofDigitChars_nil]
    omega
  rw [Nat.toString_eq_repr, Nat.toString_eq_repr, Nat.toList_repr, Nat.toList_repr, hlast,
    scanDigits]
  simp only [htake, hdrop, hfrac, hvalue]
  rw [if_neg (by simp)]
  simp

theorem scanDecimal_print (n : ℤ) : scanDecimal (printTenths n) = some ((n : ℚ) / 10) := by
  have hscan := scanDigits_print n.natAbs
  have hdot : (".").toList = ['.'] := rfl
  rw [printTenths, scanDecimal]
  simp only [String.toList_append, hdot, List.append_assoc, List.singleton_append]
  by_cases hneg : n < 0
  · have hminus : ("-").toList = ['-'] := rfl
    have habs : ((n.natAbs : ℕ) : ℚ) = -n := by
      rw [Nat.cast_natAbs, abs_of_neg hneg]
      push_cast
      rfl
    rw [if_pos hneg, hminus, List.singleton_append, List.dropWhile_cons_of_neg (by decide),
      List.head?_cons, if_pos rfl, List.tail_cons, hscan, Option.map_some, habs]
    congr 1
    ring
  · have habs : ((n.natAbs : ℕ) : ℚ) = n := by
      rw [Nat.cast_natAbs, abs_of_nonneg (not_lt.1 hneg)]
    have hempty : ("").toList = [] := rfl
    rw [if_neg hneg, hempty, List.nil_append]
    have hne : (toString (n.natAbs / 10)).toList ≠ [] := by
      rw [Nat.toString_eq_repr, Nat.toList_repr]
      exact Nat.toDigits_ne_nil
    obtain ⟨d, ds, hlist⟩ := List.exists_cons_of_ne_nil hne
    have hd : d.isDigit = true := isDigit_of_mem_toString (by rw [hlist]; exact List.mem_cons_self)
    have hminus : d ≠ '-' := by
      rintro rfl
      exact absurd hd (by decide)
    have hplus : d ≠ '+' := by
      rintro rfl
      exact absurd hd (by decide)
    rw [hlist] at hscan ⊢
    rw [List.cons_append, List.dropWhile_cons_of_neg (by simp [(isSpace_digit hd).1]),
      List.head?_cons, if_neg (by simpa using hminus), if_neg (by simpa using hplus),
      ← List.cons_append, hscan, habs]

/-- The texts of the C library. -/
def FloatText.decimal : FloatText where
  print q := printTenths ⌊printfRound (10 * q)⌋
  scan := scanDecimal
  scan_print q := by
    obtain ⟨n, hn⟩ := printfRound_int (10 * q)
    rw [printfTenth, hn, Int.floor_intCast, scanDecimal_print]

theorem Generating.tree {text : FloatText} {nnodes : ℕ} {minBand : ℚ} {gen : XmlGenerator}
    {es : List XmlElement} {parser : XmlTopologyParser}
    (h : Generating text nnodes minBand gen es parser) : parser.topology.Tree where
  toShape := h.parsed.shape
  names := by
    rw [h.parsed.names]
    refine xmlNodeNames_nodup h.fits ?_ ?_ 0
    · intro hostname hmem
      rw [h.hostnames] at hmem
      obtain ⟨c, -, rfl⟩ := List.mem_map.1 hmem
      exact genHostname_host c
    · rw [h.hostnames]
      exact List.nodup_range.map genHostname_injective

section AtEnd

variable {text : FloatText} {nnodes : ℕ} {minBand : ℚ} {gen : XmlGenerator} {es : List XmlElement}
  {parser : XmlTopologyParser}

/-- The node of a host; it is not the root. -/
theorem Generating.exists_host (h : Generating text nnodes minBand gen es parser) {c : ℕ}
    (hc : c < gen.c) :
    ∃ (v : ℕ) (node : XmlTopNode), parser.topology.nodes[v]? = some node ∧
      node.name = genHostname c ∧ v ≠ 0 := by
  have hhost : genHostname c ∈ (xmlHostnames es).filter isHostName := by
    rw [List.mem_filter, h.hostnames]
    exact ⟨List.mem_map_of_mem (List.mem_range.2 hc), genHostname_host c⟩
  rw [← filter_xmlNodeNames h.fits 0] at hhost
  have hmem : genHostname c ∈ parser.topology.nodes.map XmlTopNode.name := by
    rw [h.parsed.names]
    exact List.mem_cons_of_mem _ (List.mem_filter.1 hhost).1
  obtain ⟨node, hnode, hname⟩ := List.mem_map.1 hmem
  obtain ⟨v, hv⟩ := List.mem_iff_getElem?.1 hnode
  refine ⟨v, node, hv, hname, ?_⟩
  rintro rfl
  have hroot : (parser.topology.nodes.map XmlTopNode.name)[0]? = some "ROOT" := by
    rw [h.parsed.names]
    rfl
  rw [List.getElem?_map, hv, Option.map_some, hname, Option.some.injEq] at hroot
  have := genHostname_host c
  rw [hroot, isHostName_root] at this
  cases this

/-- The root has one neighbour, the first switch. -/
theorem GenParser.leaf (h : GenParser minBand es parser) :
    ∀ u w, parser.topology.graph.Adj u 0 → parser.topology.graph.Adj 0 w → u = w := by
  have hone : ∀ v, parser.topology.graph.Adj 0 v → v = 1 := by
    intro v hadj
    obtain ⟨e, he, ⟨h0, h1⟩ | ⟨h0, h1⟩⟩ := XmlTop.exists_edge_of_adj hadj
    · rw [← h1]
      exact h.root e he h0
    · have := (h.shape.ends e he).1
      omega
  intro u w hu hw
  rw [hone u hu.symm, hone w hw]

/-- **The path between two nodes below the first switch has positive width.** -/
theorem GenParser.bottleneck_pos (h : GenParser minBand es parser) (hmin : 1 / 20 < minBand)
    {a b : ℕ} {p : parser.topology.graph.Walk a b} (hp : 0 ∉ p.support) :
    0 < bottleneck parser.topology.widthAt fltMax p := by
  rcases @bottleneck_mem _ _ _ _ _ _ parser.topology.widthAt fltMax p with htop | ⟨x, hx, hwidth⟩
  · rw [htop]
    norm_num [fltMax]
  · rw [hwidth]
    induction x using Sym2.ind with
    | _ u v =>
      obtain ⟨e, he, hends⟩ := XmlTop.exists_edge_of_adj (p.adj_of_mem_edges hx)
      have hne : e.n0 ≠ 0 := by
        intro h0
        rcases hends with ⟨hu, -⟩ | ⟨hv, -⟩
        · exact hp (h0 ▸ hu ▸ p.fst_mem_support_of_mem_edges hx)
        · exact hp (h0 ▸ hv ▸ p.snd_mem_support_of_mem_edges hx)
      obtain ⟨band, hband, hw⟩ := (h.width e he).resolve_left hne
      have hpair : s(e.n0, e.n1) = s(u, v) := by
        rw [Sym2.eq_iff]
        exact hends
      rw [← hpair, (h.shape.attributes he).2, hw]
      exact printfTenth_pos (hmin.trans_le hband)

/-- The generated document, and the tree that the parser builds of it. -/
structure XmlGenerator.Valid (text : FloatText) (nnodes : ℕ) (gen : XmlGenerator) : Prop where
  /-- The document is well nested, and its `NODE` elements are the hosts. -/
  document : ∃ f : Forest XmlElement, f.tags XmlElement.name = gen.written ∧
    (f.elements.filter fun e => e.name = "NODE").map XmlElement.hostname =
      (List.range nnodes).map (some ∘ genHostname)
  /-- The host names are distinct. -/
  distinct : ((List.range nnodes).map genHostname).Nodup
  /-- The parser builds a tree with one node for each element; between two hosts there is a path that
  does not run over the root. -/
  parser : ∃ parser, xmlTopologyParserParse text.scan gen.written = Except.ok parser ∧
    parser.nodeStack = [] ∧ parser.topology.Tree ∧
    parser.topology.nodes.length = (opened gen.written).length ∧
    ∀ i < nnodes, ∀ j < nnodes, ∀ len width, ∃ out,
      xmlTopologyTraverse parser.topology (genHostname i) (genHostname j) ⟨[], len, width⟩ =
        Except.ok (true, out) ∧ 0 ∉ out.path

/-- The paths between the hosts of the generated document have positive width. -/
def XmlGenerator.Wide (text : FloatText) (nnodes : ℕ) (gen : XmlGenerator) : Prop :=
  ∃ parser, xmlTopologyParserParse text.scan gen.written = Except.ok parser ∧
    ∀ i < nnodes, ∀ j < nnodes, ∀ len width, ∃ out,
      xmlTopologyTraverse parser.topology (genHostname i) (genHostname j) ⟨[], len, width⟩ =
        Except.ok (true, out) ∧ 0 < out.width

theorem filter_node_hostname {elements : List XmlElement} (h : ∀ e ∈ elements, e.Fits) :
    (elements.filter fun e => e.name = "NODE").map XmlElement.hostname =
      (xmlHostnames elements).map some := by
  induction elements with
  | nil => rfl
  | cons e elements ih =>
      have he := h e List.mem_cons_self
      have ih' := ih fun e' he' => h e' (List.mem_cons_of_mem _ he')
      by_cases hname : e.name = "NODE"
      · obtain ⟨hostname, hmem, -⟩ := he.hostname hname
        have hhost := XmlElement.hostname_of hname he.nodup hmem
        rw [List.filter_cons_of_pos (by simpa using hname), List.map_cons, ih', hhost, xmlHostnames,
          xmlHostnames, List.filterMap_cons, hhost]
        rfl
      · have hhost : e.hostname = none := if_neg hname
        rw [List.filter_cons_of_neg (by simpa using hname), ih', xmlHostnames, xmlHostnames,
          List.filterMap_cons, hhost]

/-- The path between two hosts at the end. -/
theorem Generating.exists_traverse (h : Generating text nnodes minBand gen es parser) {i j : ℕ}
    (hi : i < gen.c) (hj : j < gen.c) (len width : ℚ) :
    ∃ (a b : ℕ) (p : parser.topology.graph.Walk a b), 0 ∉ p.support ∧
      xmlTopologyTraverse parser.topology (genHostname i) (genHostname j) ⟨[], len, width⟩ =
        Except.ok (true, ⟨p.support, parser.topology.pathLen 0 p,
          bottleneck parser.topology.widthAt fltMax p⟩) := by
  have htree := h.tree
  obtain ⟨a, src, ha, hsrc, ha0⟩ := h.exists_host hi
  obtain ⟨b, dst, hb, hdst, hb0⟩ := h.exists_host hj
  have hra := htree.reach a (List.getElem?_eq_some_iff.1 ha).1
  have hrb := htree.reach b (List.getElem?_eq_some_iff.1 hb).1
  obtain ⟨p, hp⟩ := (hra.symm.trans hrb).exists_isPath
  refine ⟨a, b, p, notMem_support_of_leaf h.parsed.leaf hp ha0.symm hb0.symm, ?_⟩
  rw [← hsrc, ← hdst]
  exact xmlTopologyTraverse_eq htree ha hb len width hp

/-- All hosts have been written at the end. -/
theorem Generating.complete (h : Generating text nnodes minBand gen es parser)
    (hend : gen.elemstack = []) : gen.c = nnodes := by
  by_contra hne
  have := h.depth (lt_of_le_of_ne h.le hne)
  rw [hend] at this
  simp at this

/-- **What has been written at the end is a document, and the parser builds a tree of it.** -/
theorem Generating.valid (h : Generating text nnodes minBand gen es parser)
    (hend : gen.elemstack = []) : gen.Valid text nnodes := by
  have hc := h.complete hend
  have hnested := h.nested
  rw [hend] at hnested
  obtain ⟨f, hf⟩ := nest_iff.1 hnested
  have helements : f.elements = ⟨"CLUSTER", []⟩ :: es := by
    rw [← opened_tags XmlElement.name, hf, h.opened]
  refine ⟨⟨f, hf, ?_⟩, List.nodup_range.map genHostname_injective, parser, h.run, ?_, h.tree, ?_, ?_⟩
  · rw [helements, List.filter_cons_of_neg (by simp), filter_node_hostname h.fits, h.hostnames, hc,
      List.map_map]
  · have := h.length
    rw [hend] at this
    exact List.length_eq_zero_iff.1 this
  · have := congrArg List.length h.parsed.names
    rw [List.length_map, List.length_cons, xmlNodeNames_length] at this
    rw [this, h.opened, List.length_cons]
  · intro i hi j hj len width
    obtain ⟨a, b, p, hroot, hrun⟩ := h.exists_traverse (hc ▸ hi) (hc ▸ hj) len width
    exact ⟨_, hrun, hroot⟩

/-- **The paths between its hosts have positive width**, when no bandwidth is printed as `0.0`. -/
theorem Generating.wide (h : Generating text nnodes minBand gen es parser)
    (hmin : 1 / 20 < minBand) (hend : gen.elemstack = []) : gen.Wide text nnodes := by
  have hc := h.complete hend
  refine ⟨parser, h.run, fun i hi j hj len width => ?_⟩
  obtain ⟨a, b, p, hroot, hrun⟩ := h.exists_traverse (hc ▸ hi) (hc ▸ hj) len width
  exact ⟨_, hrun, h.parsed.bottleneck_pos hmin hroot⟩

end AtEnd

/-- What has been written for two hosts when the bandwidths are at most `0.01`. -/
def narrowWritten : List (Tag XmlElement String) :=
  [Tag.start ⟨"CLUSTER", []⟩, Tag.start ⟨"SWITCH", [("bandwidth", "-2.0")]⟩,
    Tag.start ⟨"NODE", [("bandwidth", "0.0"), ("hostname", "NODE:0")]⟩, Tag.finish "NODE",
    Tag.start ⟨"NODE", [("bandwidth", "0.0"), ("hostname", "NODE:1")]⟩, Tag.finish "NODE",
    Tag.finish "SWITCH", Tag.finish "CLUSTER"]

end DLFree

/-
**The topology file: the handlers of `xml/parser.c`.**

expat reads the file and calls one handler at every opening tag and one at every closing tag.  The
handlers keep a stack of the nodes of the open elements and add a node to the topology for every
element.  The kind of an element is kept in the name of its node only: the simulator takes every
node for a host whose name does not start with `SW` or `ROOT`.

A document is the word of tags that expat reports.  The stack `node_stack` is a list whose last
element is its top.  What `%f` makes of a text is a parameter, `none` when it converts nothing; a
character of a host name is a `char`, so a name that takes 20 of them or more does not fit into
`nodename`.

Main definitions:

* `XmlElement`, `XmlTopologyParser` — an element, and `struct xml_topology_parser`;
* `xmlTopologyParserStartElem`, `xmlTopologyParserEndElem` — the two handlers;
* `xmlTopologyParserParse` — the handlers over the tags of a document;
* `XmlContent` — what a `CLUSTER` element encloses.

Main results:

* `xmlTopologyParserParse_forest` — the handlers build one node for each element, under the node of
  the element around it;
* `xmlTopologyParser_hosts` — **the hosts of the simulator are the `NODE` elements exactly when no
  host name starts with `SW` or `ROOT`**.
-/

import DLFree.LocalityAware
import DLFree.Nesting
import DLFree.Topology
import Mathlib.Data.List.TakeWhile

set_option relaxedAutoImplicit false
set_option autoImplicit false

namespace DLFree

open Nesting

/-! ### The code -/

/-- An element with its attributes, as expat hands it over. -/
structure XmlElement where
  name : String
  attrs : List (String × String)
  deriving DecidableEq, Repr

/-- `struct xml_topology_parser`. -/
structure XmlTopologyParser where
  switchId : ℕ
  nodeStack : List ℕ
  topology : XmlTop
  deriving DecidableEq, Repr

/-- `xml_topology_parser_create`, and the topology that `xml_topology_parser_run` creates. -/
def xmlTopologyParserCreate : XmlTopologyParser := ⟨0, [], xmlTopologyCreate⟩

/-- `isspace` in the `C` locale. -/
def isSpace (c : Char) : Bool := c = ' ' || (9 ≤ c.toNat && c.toNat ≤ 13)

/-- `sscanf(text, "%s", ..)`; `none` when there is nothing but white space. -/
def scanWord (text : String) : Option String :=
  let word := (text.toList.dropWhile isSpace).takeWhile fun c => !isSpace c
  if word.isEmpty then none else some (String.ofList word)

/-- The loop over the attributes of a `SWITCH` element, from `width = -1.0f`. -/
def xmlSwitchAttrs (scanFloat : String → Option ℚ) (attrs : List (String × String)) : ℚ :=
  attrs.foldl (fun width attr =>
    if attr.1 = "bandwidth" then (scanFloat attr.2).getD width else width) (-1)

/-- One round of the loop over the attributes of a `NODE` element: `width` and `nodename[20]`, which
is `none` as long as nothing has been written into it. -/
def xmlNodeAttr (scanFloat : String → Option ℚ) (s : ℚ × Option String) (attr : String × String) :
    Except Abort (ℚ × Option String) :=
  if attr.1 = "bandwidth" then Except.ok ((scanFloat attr.2).getD s.1, s.2)
  else if attr.1 = "hostname" then
    match scanWord attr.2 with
    | none => Except.ok s
    | some word =>
        if word.utf8ByteSize < 20 then Except.ok (s.1, some word)
        else Except.error Abort.badAccess
  else Except.ok s

/-- The loop over the attributes of a `NODE` element. -/
def xmlNodeAttrs (scanFloat : String → Option ℚ) (attrs : List (String × String)) :
    Except Abort (ℚ × Option String) :=
  attrs.foldlM (xmlNodeAttr scanFloat) (-1, none)

/-- `xml_top_node_vector_last`. -/
def xmlTopNodeVectorLast (vec : List ℕ) : Except Abort ℕ :=
  match vec.getLast? with
  | none => Except.error Abort.assertion
  | some node => Except.ok node

/-- `xml_top_node_vector_pop`. -/
def xmlTopNodeVectorPop (vec : List ℕ) : Except Abort (List ℕ) :=
  if vec.isEmpty then Except.error Abort.assertion else Except.ok vec.dropLast

/-- `xml_topology_parser_startElem`. -/
def xmlTopologyParserStartElem (scanFloat : String → Option ℚ) (parser : XmlTopologyParser)
    (element : XmlElement) : Except Abort XmlTopologyParser :=
  if element.name = "CLUSTER" then
    let (top, node) := xmlTopologyAddNode parser.topology "ROOT" none
    Except.ok { parser with nodeStack := parser.nodeStack ++ [node], topology := top }
  else if element.name = "SWITCH" then do
    let nodename := "SW:" ++ toString parser.switchId
    let width := xmlSwitchAttrs scanFloat element.attrs
    let parent ← xmlTopNodeVectorLast parser.nodeStack
    let (top, node) := xmlTopologyAddEdge parser.topology parent nodename 1 width
    Except.ok ⟨parser.switchId + 1, parser.nodeStack ++ [node], top⟩
  else if element.name = "NODE" then do
    let (width, nodename) ← xmlNodeAttrs scanFloat element.attrs
    let parent ← xmlTopNodeVectorLast parser.nodeStack
    match nodename with
    | none => Except.error Abort.badAccess
    | some nodename =>
        let (top, node) := xmlTopologyAddEdge parser.topology parent nodename 1 width
        Except.ok { parser with nodeStack := parser.nodeStack ++ [node], topology := top }
  else Except.error Abort.assertion

/-- `xml_topology_parser_endElem`. -/
def xmlTopologyParserEndElem (parser : XmlTopologyParser) : Except Abort XmlTopologyParser := do
  let nodeStack ← xmlTopNodeVectorPop parser.nodeStack
  Except.ok { parser with nodeStack := nodeStack }

/-- The handler that expat calls at a tag. -/
def xmlTopologyParserTag (scanFloat : String → Option ℚ) (parser : XmlTopologyParser) :
    Tag XmlElement String → Except Abort XmlTopologyParser
  | Tag.start element => xmlTopologyParserStartElem scanFloat parser element
  | Tag.finish _ => xmlTopologyParserEndElem parser

/-- `xml_topology_parser_run`: the handlers over the tags of a document. -/
def xmlTopologyParserParse (scanFloat : String → Option ℚ) (tags : List (Tag XmlElement String)) :
    Except Abort XmlTopologyParser :=
  tags.foldlM (xmlTopologyParserTag scanFloat) xmlTopologyParserCreate

/-! ### One element -/

/-- The parser after an element has opened under the node `parent`. -/
def XmlTopologyParser.opened (parser : XmlTopologyParser) (switchId parent : ℕ) (nodename : String)
    (width : ℚ) : XmlTopologyParser :=
  ⟨switchId, parser.nodeStack ++ [parser.topology.nodes.length],
    (xmlTopologyAddEdge parser.topology parent nodename 1 width).1⟩

section OneElement

variable {scanFloat : String → Option ℚ} {parser : XmlTopologyParser} {element : XmlElement}
  {stack : List ℕ} {parent : ℕ}

theorem xmlTopNodeVectorLast_append :
    xmlTopNodeVectorLast (stack ++ [parent]) = Except.ok parent := by
  rw [xmlTopNodeVectorLast, List.getLast?_append]
  rfl

theorem xmlTopologyParserEndElem_append (switchId : ℕ) (top : XmlTop) :
    xmlTopologyParserEndElem ⟨switchId, stack ++ [parent], top⟩ =
      Except.ok ⟨switchId, stack, top⟩ := by
  rw [xmlTopologyParserEndElem, xmlTopNodeVectorPop, if_neg (by simp), ok_bind,
    List.dropLast_concat]

theorem xmlTopologyParserStartElem_switch (hname : element.name = "SWITCH")
    (hstack : parser.nodeStack = stack ++ [parent]) :
    xmlTopologyParserStartElem scanFloat parser element =
      Except.ok (parser.opened (parser.switchId + 1) parent ("SW:" ++ toString parser.switchId)
        (xmlSwitchAttrs scanFloat element.attrs)) := by
  rw [xmlTopologyParserStartElem, if_neg (by rw [hname]; decide), if_pos hname, hstack,
    xmlTopNodeVectorLast_append, XmlTopologyParser.opened, hstack]
  rfl

theorem xmlTopologyParserStartElem_node {width : ℚ} {nodename : String}
    (hname : element.name = "NODE")
    (hattrs : xmlNodeAttrs scanFloat element.attrs = Except.ok (width, some nodename))
    (hstack : parser.nodeStack = stack ++ [parent]) :
    xmlTopologyParserStartElem scanFloat parser element =
      Except.ok (parser.opened parser.switchId parent nodename width) := by
  rw [xmlTopologyParserStartElem, if_neg (by rw [hname]; decide), if_neg (by rw [hname]; decide),
    if_pos hname, hattrs, ok_bind, hstack, xmlTopNodeVectorLast_append, XmlTopologyParser.opened,
    hstack]
  rfl

/-- A host name that `%s` reads as a whole. -/
structure XmlWord (hostname : String) : Prop where
  ne : hostname ≠ ""
  noSpace : ∀ c ∈ hostname.toList, isSpace c = false

theorem XmlWord.of_all {hostname : String} (ne : hostname ≠ "")
    (h : (hostname.toList.all fun c => !isSpace c) = true) : XmlWord hostname where
  ne := ne
  noSpace c hc := by simpa using List.all_eq_true.1 h c hc

theorem XmlWord.scan {hostname : String} (h : XmlWord hostname) :
    scanWord hostname = some hostname := by
  have hspace : ∀ c ∈ hostname.toList, (!isSpace c) = true := by
    intro c hc
    rw [h.noSpace c hc, Bool.not_false]
  have hdrop : hostname.toList.dropWhile isSpace = hostname.toList := by
    cases hl : hostname.toList with
    | nil => rfl
    | cons c l =>
        rw [List.dropWhile_cons, if_neg]
        rw [h.noSpace c (by rw [hl]; exact List.mem_cons_self)]
        exact Bool.false_ne_true
  have htake : hostname.toList.takeWhile (fun c => !isSpace c) = hostname.toList :=
    List.takeWhile_eq_self_iff.2 fun c hc => hspace c hc
  have hne : hostname.toList.isEmpty = false := by
    rw [List.isEmpty_eq_false_iff]
    exact fun hnil => h.ne (String.toList_eq_nil_iff.1 hnil)
  simp only [scanWord, hdrop, htake, hne, Bool.false_eq_true, if_false, String.ofList_toList]

variable {attrs : List (String × String)} {hostname : String}

theorem xmlNodeAttr_hostname (hword : XmlWord hostname) (s : ℚ × Option String) :
    xmlNodeAttr scanFloat s ("hostname", hostname) =
      if hostname.utf8ByteSize < 20 then Except.ok (s.1, some hostname)
      else Except.error Abort.badAccess := by
  have hne : ("hostname" : String) ≠ "bandwidth" := by decide
  rw [xmlNodeAttr, if_neg hne, if_pos rfl, hword.scan]

/-- The loop over the attributes of a `NODE` element ends with its host name in `nodename`. -/
theorem xmlNodeAttrs_ok (hnodup : (attrs.map Prod.fst).Nodup) (hmem : ("hostname", hostname) ∈ attrs)
    (hword : XmlWord hostname) (hsize : hostname.utf8ByteSize < 20) :
    ∃ width, xmlNodeAttrs scanFloat attrs = Except.ok (width, some hostname) := by
  have hunique : ∀ attr ∈ attrs, attr.1 = "hostname" → attr = ("hostname", hostname) :=
    fun attr hattr h => List.inj_on_of_nodup_map hnodup hattr hmem h
  have hset : ∀ s s' : ℚ × Option String,
      xmlNodeAttr scanFloat s ("hostname", hostname) = Except.ok s' → s'.2 = some hostname := by
    intro s s' h
    rw [xmlNodeAttr_hostname hword, if_pos hsize, Except.ok.injEq] at h
    rw [← h]
  have hstep : ∀ attr ∈ attrs, ∀ s, ∃ s', xmlNodeAttr scanFloat s attr = Except.ok s' ∧
      (s'.2 = some hostname ∨ s'.2 = s.2) := by
    intro attr hattr s
    by_cases hb : attr.1 = "bandwidth"
    · exact ⟨((scanFloat attr.2).getD s.1, s.2), by rw [xmlNodeAttr, if_pos hb], Or.inr rfl⟩
    · by_cases hh : attr.1 = "hostname"
      · refine ⟨(s.1, some hostname), ?_, Or.inl rfl⟩
        rw [hunique attr hattr hh, xmlNodeAttr_hostname hword, if_pos hsize]
      · exact ⟨s, by rw [xmlNodeAttr, if_neg hb, if_neg hh], Or.inr rfl⟩
  obtain ⟨s, hs⟩ := foldlM_ok (fun attr hattr s => (hstep attr hattr s).imp fun _ h => h.1)
    ((-1, none) : ℚ × Option String)
  have hname : s.2 = some hostname := by
    refine @foldlM_sets _ _ _ (fun _ => True) Prod.snd _ _ _ (fun _ _ _ _ _ _ => trivial) ?_ _ _
      trivial (Or.inr ⟨_, hmem, fun s s' _ => hset s s'⟩) hs
    intro attr hattr s s' _ h
    obtain ⟨s'', hs'', hkeep⟩ := hstep attr hattr s
    rw [hs''] at h
    cases h
    exact hkeep
  exact ⟨s.1, by rw [xmlNodeAttrs, hs, ← hname]⟩

/-- A host name that the loop has scanned fits into `nodename`. -/
theorem xmlNodeAttrs_size {s : ℚ × Option String} (hmem : ("hostname", hostname) ∈ attrs)
    (hword : XmlWord hostname) (h : xmlNodeAttrs scanFloat attrs = Except.ok s) :
    hostname.utf8ByteSize < 20 := by
  obtain ⟨s₁, s₂, hstep⟩ := foldlM_step hmem h
  rw [xmlNodeAttr_hostname hword] at hstep
  by_contra hsize
  rw [if_neg hsize] at hstep
  cases hstep

end OneElement

/-! ### A document -/

/-- The host name of a `NODE` element. -/
def XmlElement.hostname (element : XmlElement) : Option String :=
  if element.name = "NODE" then element.attrs.lookup "hostname" else none

/-- The host names of the `NODE` elements. -/
def xmlHostnames (elements : List XmlElement) : List String :=
  elements.filterMap XmlElement.hostname

/-- `switch_id` after an element has opened. -/
def xmlNextSwitch (switchId : ℕ) (element : XmlElement) : ℕ :=
  if element.name = "SWITCH" then switchId + 1 else switchId

/-- The name of the node of an element. -/
def xmlNodeName (switchId : ℕ) (element : XmlElement) : String :=
  if element.name = "SWITCH" then "SW:" ++ toString switchId else element.hostname.getD ""

/-- The names of the nodes of elements in document order. -/
def xmlNodeNames : ℕ → List XmlElement → List String
  | _, [] => []
  | switchId, element :: elements =>
      xmlNodeName switchId element :: xmlNodeNames (xmlNextSwitch switchId element) elements

/-- An element that the opening handler accepts inside of another one. -/
structure XmlElement.Fits (element : XmlElement) : Prop where
  kind : element.name = "SWITCH" ∨ element.name = "NODE"
  nodup : (element.attrs.map Prod.fst).Nodup
  hostname : element.name = "NODE" → ∃ hostname, ("hostname", hostname) ∈ element.attrs ∧
    XmlWord hostname ∧ hostname.utf8ByteSize < 20

/-- What a `CLUSTER` element encloses: `SWITCH` and `NODE` elements, the latter with distinct host
names of at most 19 characters without white space. -/
structure XmlContent (content : Forest XmlElement) : Prop where
  kinds : ∀ e ∈ content.elements, e.name = "SWITCH" ∨ e.name = "NODE"
  attrs : ∀ e ∈ content.elements, (e.attrs.map Prod.fst).Nodup
  hostname : ∀ e ∈ content.elements, e.name = "NODE" →
    ∃ hostname, ("hostname", hostname) ∈ e.attrs
  words : ∀ hostname ∈ xmlHostnames content.elements, XmlWord hostname ∧ hostname.length ≤ 19
  distinct : (xmlHostnames content.elements).Nodup

theorem xmlNodeNames_append (switchId : ℕ) (es fs : List XmlElement) :
    xmlNodeNames switchId (es ++ fs) =
      xmlNodeNames switchId es ++ xmlNodeNames (es.foldl xmlNextSwitch switchId) fs := by
  induction es generalizing switchId with
  | nil => rfl
  | cons e es ih =>
      rw [List.cons_append, xmlNodeNames, xmlNodeNames, ih, List.cons_append, List.foldl_cons]

@[simp] theorem xmlNodeNames_length (switchId : ℕ) (es : List XmlElement) :
    (xmlNodeNames switchId es).length = es.length := by
  induction es generalizing switchId with
  | nil => rfl
  | cons e es ih => rw [xmlNodeNames, List.length_cons, List.length_cons, ih]

theorem lookup_of_nodup {attrs : List (String × String)} {key value : String}
    (hnodup : (attrs.map Prod.fst).Nodup) (hmem : (key, value) ∈ attrs) :
    attrs.lookup key = some value := by
  induction attrs with
  | nil => cases hmem
  | cons attr attrs ih =>
      rw [List.map_cons, List.nodup_cons] at hnodup
      rcases List.mem_cons.1 hmem with rfl | hmem
      · rw [List.lookup_cons_self]
      · have hne : key ≠ attr.1 := by
          intro h
          exact hnodup.1 (h ▸ List.mem_map_of_mem hmem)
        rw [List.lookup_cons, beq_eq_false_iff_ne.2 hne]
        exact ih hnodup.2 hmem

theorem XmlElement.hostname_of {element : XmlElement} {hostname : String}
    (hname : element.name = "NODE") (hnodup : (element.attrs.map Prod.fst).Nodup)
    (hmem : ("hostname", hostname) ∈ element.attrs) : element.hostname = some hostname := by
  rw [XmlElement.hostname, if_pos hname, lookup_of_nodup hnodup hmem]

/-- **An element that opens gets one node under the node of the element around it.** -/
theorem XmlElement.Fits.startElem {element : XmlElement} (h : element.Fits)
    (scanFloat : String → Option ℚ) {parser : XmlTopologyParser} {stack : List ℕ} {parent : ℕ}
    (hstack : parser.nodeStack = stack ++ [parent]) :
    ∃ width, xmlTopologyParserStartElem scanFloat parser element =
      Except.ok (parser.opened (xmlNextSwitch parser.switchId element) parent
        (xmlNodeName parser.switchId element) width) := by
  rcases h.kind with hname | hname
  · refine ⟨xmlSwitchAttrs scanFloat element.attrs, ?_⟩
    rw [xmlTopologyParserStartElem_switch hname hstack, xmlNextSwitch, xmlNodeName, if_pos hname,
      if_pos hname]
  · obtain ⟨hostname, hmem, hword, hsize⟩ := h.hostname hname
    obtain ⟨width, hattrs⟩ := @xmlNodeAttrs_ok scanFloat _ _ h.nodup hmem hword hsize
    have hne : element.name ≠ "SWITCH" := by
      rw [hname]
      decide
    refine ⟨width, ?_⟩
    rw [xmlTopologyParserStartElem_node hname hattrs hstack, xmlNextSwitch, xmlNodeName, if_neg hne,
      if_neg hne, XmlElement.hostname_of hname h.nodup hmem, Option.getD_some]

/-- A topology with more nodes: their names, and the indices of their parents. -/
structure XmlTop.Grown (old new : XmlTop) (names : List String) (parents : List ℕ) : Prop where
  shape : new.Shape
  names_eq : new.nodes.map XmlTopNode.name = old.nodes.map XmlTopNode.name ++ names
  parents_eq : new.nodes.map XmlTopNode.parent = old.nodes.map XmlTopNode.parent ++ parents.map some
  ends_eq : new.edges.map XmlTopEdge.ends =
    old.edges.map XmlTopEdge.ends ++ parents.zipIdx old.nodes.length

namespace XmlTop.Grown

variable {old mid new : XmlTop} {names names' : List String} {parents parents' : List ℕ}

theorem length_eq (h : old.Grown new names parents) :
    new.nodes.length = old.nodes.length + parents.length := by
  have := congrArg List.length h.parents_eq
  simpa using this

theorem refl (h : old.Shape) : old.Grown old [] [] :=
  ⟨h, (List.append_nil _).symm, (List.append_nil _).symm, (List.append_nil _).symm⟩

theorem trans (h : old.Grown mid names parents) (h' : mid.Grown new names' parents') :
    old.Grown new (names ++ names') (parents ++ parents') where
  shape := h'.shape
  names_eq := by rw [h'.names_eq, h.names_eq, List.append_assoc]
  parents_eq := by rw [h'.parents_eq, h.parents_eq, List.append_assoc, List.map_append]
  ends_eq := by
    rw [h'.ends_eq, h.ends_eq, List.append_assoc, h.length_eq, List.zipIdx_append]

theorem addEdge (h : old.Shape) {parent : ℕ} (hparent : parent < old.nodes.length)
    (nodename : String) (len width : ℚ) :
    old.Grown (xmlTopologyAddEdge old parent nodename len width).1 [nodename] [parent] where
  shape := h.addEdge nodename len width hparent
  names_eq := xmlTopologyAddEdge_names old parent nodename len width
  parents_eq := xmlTopologyAddEdge_parents old parent nodename len width
  ends_eq := by
    rw [xmlTopologyAddEdge, List.map_append]
    rfl

theorem cons (h : old.Shape) {parent : ℕ} (hparent : parent < old.nodes.length)
    {nodename : String} {len width : ℚ}
    (h' : (xmlTopologyAddEdge old parent nodename len width).1.Grown new names parents) :
    old.Grown new (nodename :: names) (parent :: parents) :=
  (addEdge h hparent nodename len width).trans h'

end XmlTop.Grown

/-- **The handlers over the tags of a forest add one node for each element, under the node of the
element around it, and leave the stack as it was.** -/
theorem xmlTopologyParserParse_forest (scanFloat : String → Option ℚ) (f : Forest XmlElement)
    (hf : ∀ e ∈ f.elements, e.Fits) {parser : XmlTopologyParser} {stack : List ℕ} {parent : ℕ}
    (hstack : parser.nodeStack = stack ++ [parent]) (hparent : parent < parser.topology.nodes.length)
    (hshape : parser.topology.Shape) :
    ∃ top, (f.tags XmlElement.name).foldlM (xmlTopologyParserTag scanFloat) parser =
        Except.ok ⟨f.elements.foldl xmlNextSwitch parser.switchId, parser.nodeStack, top⟩ ∧
      parser.topology.Grown top (xmlNodeNames parser.switchId f.elements)
        (f.parents parent parser.topology.nodes.length) := by
  induction f generalizing parser stack parent with
  | nil => exact ⟨parser.topology, rfl, XmlTop.Grown.refl hshape⟩
  | cons e content rest ihc ihr =>
      simp only [Forest.elements, List.mem_cons, List.mem_append] at hf
      obtain ⟨width, hopen⟩ := (hf e (Or.inl rfl)).startElem scanFloat hstack
      have hgrow := XmlTop.Grown.addEdge hshape hparent (xmlNodeName parser.switchId e) 1 width
      have hlen : (parser.opened (xmlNextSwitch parser.switchId e) parent
          (xmlNodeName parser.switchId e) width).topology.nodes.length =
          parser.topology.nodes.length + 1 := hgrow.length_eq
      -- what the element encloses lies under its node, which is on top of the stack
      obtain ⟨topc, hrunc, hgrowc⟩ := ihc (fun e' he' => hf e' (Or.inr (Or.inl he')))
        (show (parser.opened (xmlNextSwitch parser.switchId e) parent
          (xmlNodeName parser.switchId e) width).nodeStack = _ from rfl) (by omega) hgrow.shape
      have hlenc := hgrowc.length_eq
      rw [Forest.parents_length, hlen] at hlenc
      -- the closing tag takes it off again, and the rest of the forest follows
      obtain ⟨topr, hrunr, hgrowr⟩ := ihr (fun e' he' => hf e' (Or.inr (Or.inr he')))
        (show (XmlTopologyParser.mk (content.elements.foldl xmlNextSwitch
          (xmlNextSwitch parser.switchId e)) parser.nodeStack topc).nodeStack = _ from hstack)
        (by simp only; omega) hgrowc.shape
      refine ⟨topr, ?_, ?_⟩
      · have hclose : xmlTopologyParserTag scanFloat
            ⟨content.elements.foldl xmlNextSwitch (xmlNextSwitch parser.switchId e),
              parser.nodeStack ++ [parser.topology.nodes.length], topc⟩ (Tag.finish e.name) =
            Except.ok ⟨content.elements.foldl xmlNextSwitch (xmlNextSwitch parser.switchId e),
              parser.nodeStack, topc⟩ := xmlTopologyParserEndElem_append _ topc
        rw [Forest.tags, List.foldlM_cons, xmlTopologyParserTag, hopen, ok_bind, List.foldlM_append,
          hrunc, ok_bind, List.foldlM_cons, XmlTopologyParser.opened, hclose, ok_bind, hrunr,
          Forest.elements, List.foldl_cons, List.foldl_append]
      · rw [Forest.elements, xmlNodeNames, xmlNodeNames_append, Forest.parents, ← hlen, hlen,
          ← hlenc]
        rw [hlen] at hgrowc
        exact XmlTop.Grown.cons hshape hparent (hgrowc.trans hgrowr)

/-! ### The hosts of the simulator -/

theorem isHostName_switch (switchId : ℕ) : isHostName ("SW:" ++ toString switchId) = false := by
  have hstarts : nameStarts "SW" ("SW:" ++ toString switchId) = true := by
    rw [nameStarts, String.toList_append]
    rfl
  rw [isHostName, hstarts]
  rfl

theorem isHostName_root : isHostName "ROOT" = false := by decide

/-- Of the names of the nodes, those of the elements that are no hosts drop out. -/
theorem filter_xmlNodeNames {elements : List XmlElement} (h : ∀ e ∈ elements, e.Fits)
    (switchId : ℕ) :
    (xmlNodeNames switchId elements).filter isHostName =
      (xmlHostnames elements).filter isHostName := by
  induction elements generalizing switchId with
  | nil => rfl
  | cons e elements ih =>
      have he := h e List.mem_cons_self
      have ih' := ih (fun e' he' => h e' (List.mem_cons_of_mem _ he')) (xmlNextSwitch switchId e)
      rw [xmlNodeNames, xmlNodeName, xmlHostnames, List.filterMap_cons]
      rcases he.kind with hname | hname
      · have hhost : e.hostname = none := by
          rw [XmlElement.hostname, if_neg]
          rw [hname]
          decide
        have hneg : ¬ isHostName ("SW:" ++ toString switchId) = true := by
          rw [isHostName_switch]
          exact Bool.false_ne_true
        rw [if_pos hname, hhost, List.filter_cons_of_neg hneg]
        exact ih'
      · obtain ⟨hostname, hmem, -⟩ := he.hostname hname
        have hne : e.name ≠ "SWITCH" := by
          rw [hname]
          decide
        rw [if_neg hne, XmlElement.hostname_of hname he.nodup hmem, Option.getD_some]
        simp only [List.filter_cons, ih']
        rfl

/-! ### The names of the nodes -/

theorem toString_injective {m n : ℕ} (h : toString m = toString n) : m = n := by
  have hdigits := congrArg (fun s : String => Nat.ofDigitChars 10 s.toList 0) h
  simpa using hdigits

theorem mem_xmlNodeNames {elements : List XmlElement} (h : ∀ e ∈ elements, e.Fits) {switchId : ℕ}
    {nodename : String} (hmem : nodename ∈ xmlNodeNames switchId elements) :
    (∃ i, switchId ≤ i ∧ nodename = "SW:" ++ toString i) ∨ nodename ∈ xmlHostnames elements := by
  induction elements generalizing switchId with
  | nil => cases hmem
  | cons e elements ih =>
      have he := h e List.mem_cons_self
      have hhost : ∀ hostname ∈ xmlHostnames elements, hostname ∈ xmlHostnames (e :: elements) := by
        intro hostname hmem'
        exact ((List.sublist_cons_self e elements).filterMap _).subset hmem'
      have hnext : switchId ≤ xmlNextSwitch switchId e := by
        rw [xmlNextSwitch]
        split <;> omega
      rcases List.mem_cons.1 hmem with rfl | hmem
      · rcases he.kind with hname | hname
        · exact Or.inl ⟨switchId, le_refl _, by rw [xmlNodeName, if_pos hname]⟩
        · obtain ⟨hostname, hattr, -⟩ := he.hostname hname
          have hne : e.name ≠ "SWITCH" := by
            rw [hname]
            decide
          have hhostname := XmlElement.hostname_of hname he.nodup hattr
          refine Or.inr (List.mem_filterMap.2 ⟨e, List.mem_cons_self, ?_⟩)
          rw [xmlNodeName, if_neg hne, hhostname, Option.getD_some]
      · rcases ih (fun e' he' => h e' (List.mem_cons_of_mem _ he')) hmem with ⟨i, hi, hname⟩ | hmem'
        · exact Or.inl ⟨i, hnext.trans hi, hname⟩
        · exact Or.inr (hhost nodename hmem')

/-- The nodes of a document have different names when no host is called like a switch or a root. -/
theorem xmlNodeNames_nodup {elements : List XmlElement} (h : ∀ e ∈ elements, e.Fits)
    (hhost : ∀ hostname ∈ xmlHostnames elements, isHostName hostname = true)
    (hnodup : (xmlHostnames elements).Nodup) (switchId : ℕ) :
    ("ROOT" :: xmlNodeNames switchId elements).Nodup := by
  induction elements generalizing switchId with
  | nil => exact List.nodup_singleton _
  | cons e elements ih =>
      have he := h e List.mem_cons_self
      have htail : ∀ e' ∈ elements, e'.Fits := fun e' he' => h e' (List.mem_cons_of_mem _ he')
      have hsub := (List.sublist_cons_self e elements).filterMap XmlElement.hostname
      have hroot := ih htail (fun hostname hmem => hhost hostname (hsub.subset hmem))
        (hnodup.sublist hsub) (xmlNextSwitch switchId e)
      rw [List.nodup_cons] at hroot
      rw [xmlNodeNames, List.nodup_cons, List.nodup_cons, List.mem_cons, not_or]
      rcases he.kind with hname | hname
      · -- the name of a switch is no host name, and later switches have higher numbers
        have hself : xmlNodeName switchId e = "SW:" ++ toString switchId := by
          rw [xmlNodeName, if_pos hname]
        have hnext : xmlNextSwitch switchId e = switchId + 1 := if_pos hname
        rw [hself]
        refine ⟨⟨?_, hroot.1⟩, ?_, hroot.2⟩
        · intro heq
          have := congrArg String.toList heq
          rw [String.toList_append] at this
          simp at this
        · intro hmem
          rcases mem_xmlNodeNames htail hmem with ⟨i, hi, hi'⟩ | hmem'
          · have := toString_injective ((String.append_right_inj _).1 hi')
            omega
          · have := hhost _ (hsub.subset hmem')
            rw [isHostName_switch] at this
            cases this
      · obtain ⟨hostname, hattr, -⟩ := he.hostname hname
        have hne : e.name ≠ "SWITCH" := by
          rw [hname]
          decide
        have hhostname := XmlElement.hostname_of hname he.nodup hattr
        have hself : xmlNodeName switchId e = hostname := by
          rw [xmlNodeName, if_neg hne, hhostname, Option.getD_some]
        have hcons : xmlHostnames (e :: elements) = hostname :: xmlHostnames elements := by
          rw [xmlHostnames, List.filterMap_cons, hhostname]
          rfl
        rw [hcons, List.nodup_cons] at hnodup
        have hname' := hhost hostname (hcons ▸ List.mem_cons_self)
        rw [hself]
        refine ⟨⟨?_, hroot.1⟩, ?_, hroot.2⟩
        · rintro rfl
          rw [isHostName_root] at hname'
          cases hname'
        · intro hmem
          rcases mem_xmlNodeNames htail hmem with ⟨i, -, rfl⟩ | hmem'
          · rw [isHostName_switch] at hname'
            cases hname'
          · exact hnodup.1 hmem'

/-- The document of a `CLUSTER` element. -/
def xmlDocument (attrs : List (String × String)) (content : Forest XmlElement) :
    List (Tag XmlElement String) :=
  (Forest.cons ⟨"CLUSTER", attrs⟩ content Forest.nil).tags XmlElement.name

/-- The handlers over the tags of a document. -/
theorem xmlTopologyParserParse_document (scanFloat : String → Option ℚ)
    (attrs : List (String × String)) (content : Forest XmlElement)
    (h : ∀ e ∈ content.elements, e.Fits) :
    ∃ top, xmlTopologyParserParse scanFloat (xmlDocument attrs content) =
        Except.ok ⟨content.elements.foldl xmlNextSwitch 0, [], top⟩ ∧
      (xmlTopologyAddNode xmlTopologyCreate "ROOT" none).1.Grown top
        (xmlNodeNames 0 content.elements) (content.parents 0 1) := by
  have hroot : xmlTopologyParserStartElem scanFloat xmlTopologyParserCreate ⟨"CLUSTER", attrs⟩ =
      Except.ok ⟨0, [0], (xmlTopologyAddNode xmlTopologyCreate "ROOT" none).1⟩ := rfl
  obtain ⟨top, hrun, hgrow⟩ := @xmlTopologyParserParse_forest scanFloat content h
    ⟨0, [0], (xmlTopologyAddNode xmlTopologyCreate "ROOT" none).1⟩ [] 0 rfl (Nat.zero_lt_one)
    (XmlTop.shape_root "ROOT")
  refine ⟨top, ?_, hgrow⟩
  have hclose : xmlTopologyParserTag scanFloat
      ⟨content.elements.foldl xmlNextSwitch 0, [0], top⟩ (Tag.finish "CLUSTER") =
      Except.ok ⟨content.elements.foldl xmlNextSwitch 0, [], top⟩ :=
    @xmlTopologyParserEndElem_append [] _ _ top
  rw [xmlTopologyParserParse, xmlDocument, Forest.tags, List.foldlM_cons, xmlTopologyParserTag,
    hroot, ok_bind, List.foldlM_append, hrun, ok_bind, List.foldlM_cons, hclose]
  rfl

theorem XmlContent.fits {content : Forest XmlElement} (h : XmlContent content)
    (hsize : ∀ hostname ∈ xmlHostnames content.elements, hostname.utf8ByteSize < 20) :
    ∀ e ∈ content.elements, e.Fits := by
  intro e he
  refine ⟨h.kinds e he, h.attrs e he, fun hname => ?_⟩
  obtain ⟨hostname, hmem⟩ := h.hostname e he hname
  have hhost : hostname ∈ xmlHostnames content.elements :=
    List.mem_filterMap.2 ⟨e, he, XmlElement.hostname_of hname (h.attrs e he) hmem⟩
  exact ⟨hostname, hmem, (h.words hostname hhost).1, hsize hostname hhost⟩

/-- The parser builds a tree with one node for each element of the document, in document order and
under the node of the element around it, and the simulator makes one host of each `NODE` element,
with its host name and the next pid. -/
structure XmlHosts (scanFloat : String → Option ℚ) (attrs : List (String × String))
    (content : Forest XmlElement) (parser : XmlTopologyParser) : Prop where
  run : xmlTopologyParserParse scanFloat (xmlDocument attrs content) = Except.ok parser
  stack : parser.nodeStack = []
  shape : parser.topology.Shape
  names : parser.topology.nodes.map XmlTopNode.name = "ROOT" :: xmlNodeNames 0 content.elements
  parents : parser.topology.nodes.map XmlTopNode.parent = none :: (content.parents 0 1).map some
  ends : parser.topology.edges.map XmlTopEdge.ends = (content.parents 0 1).zipIdx 1
  hosts : (overlayGraphSimulateAddNodes overlayGraphCreate
    (parser.topology.nodes.map XmlTopNode.name)).hosts =
      (xmlHostnames content.elements).mapIdx OverlayNode.mk

section Hosts

variable {scanFloat : String → Option ℚ} {attrs : List (String × String)}
  {content : Forest XmlElement} {parser : XmlTopologyParser}

/-- Every host name of a document that the handlers accept fits into `nodename`. -/
theorem XmlHosts.size (h : XmlHosts scanFloat attrs content parser) (hcontent : XmlContent content) :
    ∀ hostname ∈ xmlHostnames content.elements, hostname.utf8ByteSize < 20 := by
  intro hostname hhost
  obtain ⟨e, he, hname⟩ := List.mem_filterMap.1 hhost
  have hnode : e.name = "NODE" := by
    by_contra hne
    rw [XmlElement.hostname, if_neg hne] at hname
    cases hname
  obtain ⟨hostname', hmem⟩ := hcontent.hostname e he hnode
  have heq : hostname' = hostname := by
    rw [XmlElement.hostname_of hnode (hcontent.attrs e he) hmem] at hname
    exact Option.some.inj hname
  subst heq
  have htag : Tag.start e ∈ xmlDocument attrs content :=
    List.mem_cons_of_mem _ (List.mem_append_left _ (Forest.start_mem_tags XmlElement.name he))
  obtain ⟨p₁, p₂, hstep⟩ := foldlM_step htag h.run
  have hc : e.name ≠ "CLUSTER" := by
    rw [hnode]
    decide
  have hs : e.name ≠ "SWITCH" := by
    rw [hnode]
    decide
  rw [xmlTopologyParserTag, xmlTopologyParserStartElem, if_neg hc, if_neg hs, if_pos hnode] at hstep
  obtain ⟨s, hs, -⟩ := bind_eq_ok.1 hstep
  exact xmlNodeAttrs_size hmem (hcontent.words hostname' hhost).1 hs

/-- Every host name of a document whose hosts the simulator creates is taken for a host. -/
theorem XmlHosts.isHostName (h : XmlHosts scanFloat attrs content parser)
    (hcontent : XmlContent content) :
    ∀ hostname ∈ xmlHostnames content.elements, isHostName hostname = true := by
  have hnames := congrArg (List.map OverlayNode.name) h.hosts
  rw [overlayGraphSimulateAddNodes_hosts, h.names,
    List.filter_cons_of_neg (by rw [isHostName_root]; exact Bool.false_ne_true),
    filter_xmlNodeNames (hcontent.fits (h.size hcontent)), map_name_mapIdx,
    map_name_mapIdx] at hnames
  exact List.filter_eq_self.1 hnames

end Hosts

/-- **The hosts of the simulator are the `NODE` elements exactly when every host name fits into
`nodename` and none starts with `SW` or `ROOT`.** -/
theorem xmlTopologyParser_hosts (scanFloat : String → Option ℚ) (attrs : List (String × String))
    (content : Forest XmlElement) (hcontent : XmlContent content) :
    (∃ parser, XmlHosts scanFloat attrs content parser) ↔
      ∀ hostname ∈ xmlHostnames content.elements,
        hostname.utf8ByteSize ≤ 19 ∧ nameStarts "SW" hostname = false ∧
          nameStarts "ROOT" hostname = false := by
  constructor
  · rintro ⟨parser, h⟩ hostname hhost
    have hname := h.isHostName hcontent hostname hhost
    rw [isHostName, Bool.and_eq_true, Bool.not_eq_true', Bool.not_eq_true'] at hname
    exact ⟨Nat.le_of_lt_succ (h.size hcontent hostname hhost), hname⟩
  · intro h
    have hsize : ∀ hostname ∈ xmlHostnames content.elements, hostname.utf8ByteSize < 20 :=
      fun hostname hhost => Nat.lt_succ_of_le (h hostname hhost).1
    have hfits := hcontent.fits hsize
    obtain ⟨top, hrun, hgrow⟩ := xmlTopologyParserParse_document scanFloat attrs content hfits
    refine ⟨_, ⟨hrun, rfl, hgrow.shape, hgrow.names_eq, hgrow.parents_eq, hgrow.ends_eq, ?_⟩⟩
    have hnames : top.nodes.map XmlTopNode.name = "ROOT" :: xmlNodeNames 0 content.elements :=
      hgrow.names_eq
    have hself : (xmlHostnames content.elements).filter isHostName =
        xmlHostnames content.elements := by
      refine List.filter_eq_self.2 fun hostname hhost => ?_
      rw [isHostName, (h hostname hhost).2.1, (h hostname hhost).2.2]
      rfl
    rw [overlayGraphSimulateAddNodes_hosts, hnames,
      List.filter_cons_of_neg (by rw [isHostName_root]; exact Bool.false_ne_true),
      filter_xmlNodeNames hfits, hself]

/-- A switch with two hosts below it. -/
def switchContent (host₀ host₁ : String) : Forest XmlElement :=
  Forest.cons ⟨"SWITCH", [("bandwidth", "1000.0")]⟩
    (Forest.cons ⟨"NODE", [("bandwidth", "100.0"), ("hostname", host₀)]⟩ Forest.nil
      (Forest.cons ⟨"NODE", [("bandwidth", "100.0"), ("hostname", host₁)]⟩ Forest.nil Forest.nil))
    Forest.nil

theorem switchContent_ok {host₀ host₁ : String} (h₀ : XmlWord host₀ ∧ host₀.length ≤ 19)
    (h₁ : XmlWord host₁ ∧ host₁.length ≤ 19) (hne : host₀ ≠ host₁) :
    XmlContent (switchContent host₀ host₁) where
  kinds := by simp [switchContent, Forest.elements]
  attrs := by simp [switchContent, Forest.elements]
  hostname := by simp [switchContent, Forest.elements]
  words := by
    have hhosts : xmlHostnames (switchContent host₀ host₁).elements = [host₀, host₁] := rfl
    rw [hhosts]
    simp [h₀, h₁]
  distinct := by
    have hhosts : xmlHostnames (switchContent host₀ host₁).elements = [host₀, host₁] := rfl
    rw [hhosts]
    simpa using hne

/-- Two hosts below a switch. -/
theorem xmlTopologyParser_hosts_switch :
    XmlContent (switchContent "left" "right") ∧
      ∃ parser, XmlHosts (fun _ => none) [] (switchContent "left" "right") parser := by
  have hcontent : XmlContent (switchContent "left" "right") :=
    switchContent_ok ⟨XmlWord.of_all (by decide) (by decide), by decide⟩
      ⟨XmlWord.of_all (by decide) (by decide), by decide⟩ (by decide)
  exact ⟨hcontent, (xmlTopologyParser_hosts _ _ _ hcontent).2 (by decide)⟩

/-- A host whose name starts with `SW` is lost. -/
theorem xmlTopologyParser_hosts_swan :
    XmlContent (switchContent "SWAN01" "right") ∧
      ¬ ∃ parser, XmlHosts (fun _ => none) [] (switchContent "SWAN01" "right") parser := by
  have hcontent : XmlContent (switchContent "SWAN01" "right") :=
    switchContent_ok ⟨XmlWord.of_all (by decide) (by decide), by decide⟩
      ⟨XmlWord.of_all (by decide) (by decide), by decide⟩ (by decide)
  refine ⟨hcontent, ?_⟩
  rintro ⟨parser, h⟩
  have hname := h.isHostName hcontent "SWAN01" (by decide)
  exact absurd hname (by decide)

end DLFree

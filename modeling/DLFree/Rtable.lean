/-
**Routing tables and how they travel: `struct/rtable.c`.**

The routing table of a source holds, for every other host, the path to it.  A path carries its own
length, so the number of hops of an entry is always one less than the nodes on its path.  Nodes
exchange their tables, so a table is packed into bytes and unpacked again at every other node.

Main definitions:

* `OverlayRtableEntry`, `OverlayRtable` — the structures of the source;
* `overlayRtableAddEntry`, `overlayRtableGetEntry`, `overlayRtablePack`, `overlayRtablePackLen`,
  `overlayRtableCreateByUnpack` — its functions;
* `commNodeLookupRt` — `comm_node_lookup_rt`: the next hop of a node on a path;
* `OverlayRtable.Complete`, `OverlayRtable.Full` — tables with an entry for every host but the
  source.

Main results:

* `overlayRtableCreateByUnpack_pack` — **a complete table is unpacked as it was packed**;
* `overlayRtable_codec` — packing, its length and unpacking agree on the tables of `calc_rt`;
* `commNodeLookupRt_eq` — the lookup follows a path that visits no node twice.
-/

import DLFree.Bytes
import DLFree.Libc

set_option relaxedAutoImplicit false
set_option autoImplicit false

namespace DLFree

/-- `struct overlay_rtable_entry`; the path includes both ends. -/
structure OverlayRtableEntry where
  dstPid : ℤ
  path : List ℤ
  metric : ℤ
  width : ℤ
  deriving DecidableEq, Repr, Inhabited

/-- The field `hops`. -/
def OverlayRtableEntry.hops (entry : OverlayRtableEntry) : ℤ := entry.path.length - 1

/-- `struct overlay_rtable`. -/
structure OverlayRtable where
  srcpid : ℤ
  entries : List (Option OverlayRtableEntry)
  deriving DecidableEq, Repr

/-- `overlay_rtable_create`. -/
def overlayRtableCreate (srcpid : ℤ) (nentry : ℤ) : OverlayRtable where
  srcpid := srcpid
  entries := List.replicate nentry.toNat none

/-- `overlay_rtable_size`. -/
def overlayRtableSize (rt : OverlayRtable) : ℕ := rt.entries.length

/-- `overlay_rtable_add_entry`. -/
def overlayRtableAddEntry (rt : OverlayRtable) (entry : OverlayRtableEntry) :
    Except Abort OverlayRtable :=
  if entry.dstPid < 0 then Except.error Abort.badAccess
  else
    match rt.entries[entry.dstPid.toNat]? with
    | none => Except.error Abort.badAccess
    | some (some _) => Except.error Abort.assertion
    | some none =>
        Except.ok { rt with entries := rt.entries.set entry.dstPid.toNat (some entry) }

/-- `overlay_rtable_get_entry`; `none` is the null pointer. -/
def overlayRtableGetEntry (rt : OverlayRtable) (pid : ℤ) :
    Except Abort (Option OverlayRtableEntry) :=
  if pid < 0 then Except.error Abort.badAccess
  else
    match rt.entries[pid.toNat]? with
    | none => Except.error Abort.badAccess
    | some entry => Except.ok entry

/-! ### Packing -/

/-- `overlay_rtable_entry_pack`. -/
def overlayRtableEntryPack (bo : ByteOrder) (entry : OverlayRtableEntry) : List Byte :=
  packInt bo entry.dstPid ++ packInt bo entry.hops ++ packInt bo entry.metric ++
    packInt bo entry.width ++ entry.path.flatMap (packInt bo)

/-- `overlay_rtable_entry_pack_len`. -/
def overlayRtableEntryPackLen (entry : OverlayRtableEntry) : ℤ :=
  4 + 4 + 4 + 4 + 4 * (entry.hops + 1)

/-- `unpack_int` on a buffer that has to be long enough. -/
def readInt (bo : ByteOrder) (p : List Byte) : Except Abort (ℤ × List Byte) :=
  match unpackInt bo p with
  | none => Except.error Abort.badAccess
  | some r => Except.ok r

/-- The loop that reads a path. -/
def readPath (bo : ByteOrder) : ℕ → List Byte → Except Abort (List ℤ × List Byte)
  | 0, p => Except.ok ([], p)
  | k + 1, p => do
      let (pid, p) ← readInt bo p
      let (path, p) ← readPath bo k p
      Except.ok (pid :: path, p)

/-- `overlay_rtable_entry_create_by_unpack`; the allocation for a negative length ends the process. -/
def overlayRtableEntryCreateByUnpack (bo : ByteOrder) (p : List Byte) :
    Except Abort (OverlayRtableEntry × List Byte) := do
  let (dstPid, p) ← readInt bo p
  let (hops, p) ← readInt bo p
  let (metric, p) ← readInt bo p
  let (width, p) ← readInt bo p
  if hops + 1 < 0 then Except.error Abort.assertion
  else do
    let (path, p) ← readPath bo (hops + 1).toNat p
    Except.ok (⟨dstPid, path, metric, width⟩, p)

/-- The loop of `overlay_rtable_pack` from the entry `pid` on. -/
def packEntries (bo : ByteOrder) (srcpid : ℤ) :
    ℕ → List (Option OverlayRtableEntry) → Except Abort (List Byte)
  | _, [] => Except.ok []
  | pid, entry :: entries =>
      if pid = srcpid then packEntries bo srcpid (pid + 1) entries
      else
        match entry with
        | none => Except.error Abort.assertion
        | some entry => do
            let rest ← packEntries bo srcpid (pid + 1) entries
            Except.ok (overlayRtableEntryPack bo entry ++ rest)

/-- `overlay_rtable_pack`. -/
def overlayRtablePack (bo : ByteOrder) (rt : OverlayRtable) : Except Abort (List Byte) := do
  let body ← packEntries bo rt.srcpid 0 rt.entries
  Except.ok (packInt bo rt.srcpid ++ packInt bo rt.entries.length ++ body)

/-- The loop of `overlay_rtable_pack_len` from the entry `pid` on. -/
def packLenEntries (srcpid : ℤ) : ℕ → List (Option OverlayRtableEntry) → Except Abort ℤ
  | _, [] => Except.ok 0
  | pid, entry :: entries =>
      if pid = srcpid then packLenEntries srcpid (pid + 1) entries
      else
        match entry with
        | none => Except.error Abort.assertion
        | some entry => do
            let rest ← packLenEntries srcpid (pid + 1) entries
            Except.ok (overlayRtableEntryPackLen entry + rest)

/-- `overlay_rtable_pack_len`. -/
def overlayRtablePackLen (rt : OverlayRtable) : Except Abort ℤ := do
  let body ← packLenEntries rt.srcpid 0 rt.entries
  Except.ok (4 + 4 + body)

/-- The loop of `overlay_rtable_create_by_unpack`: `k` entries from `pid` on. -/
def readEntries (bo : ByteOrder) (srcpid : ℤ) :
    ℕ → ℕ → OverlayRtable → List Byte → Except Abort (OverlayRtable × List Byte)
  | 0, _, rt, p => Except.ok (rt, p)
  | k + 1, pid, rt, p =>
      if pid = srcpid then readEntries bo srcpid k (pid + 1) rt p
      else do
        let (entry, p) ← overlayRtableEntryCreateByUnpack bo p
        let rt ← overlayRtableAddEntry rt entry
        readEntries bo srcpid k (pid + 1) rt p

/-- `overlay_rtable_create_by_unpack`; the allocation for a negative `nentry` ends the process. -/
def overlayRtableCreateByUnpack (bo : ByteOrder) (p : List Byte) :
    Except Abort (OverlayRtable × List Byte) := do
  let (srcpid, p) ← readInt bo p
  let (nentry, p) ← readInt bo p
  if nentry < 0 then Except.error Abort.assertion
  else readEntries bo srcpid nentry.toNat 0 (overlayRtableCreate srcpid nentry) p

/-! ### Looking up the next hop -/

/-- The loop of `comm_node_lookup_rt` over a path. -/
def pathNextHop (nodeId : ℤ) : List ℤ → ℤ
  | pid :: next :: path => if pid = nodeId then next else pathNextHop nodeId (next :: path)
  | _ => -1

/-- `comm_node_lookup_rt` of the node `nodeId`, which stores the tables `rts`. -/
def commNodeLookupRt (nodeId : ℤ) (rts : ℤ → Option OverlayRtable) (srcPid dstPid : ℤ) :
    Except Abort ℤ :=
  match rts srcPid with
  | none => Except.error Abort.assertion
  | some rt => do
      match ← overlayRtableGetEntry rt dstPid with
      | none => Except.error Abort.assertion
      | some entry => Except.ok (pathNextHop nodeId entry.path)

/-- A node that a path visits once is followed by the next node on the path. -/
theorem pathNextHop_eq {nodeId next : ℤ} {pre post : List ℤ} (h : nodeId ∉ pre) :
    pathNextHop nodeId (pre ++ nodeId :: next :: post) = next := by
  induction pre with
  | nil => simp [pathNextHop]
  | cons x pre ih =>
      have hx : x ≠ nodeId := fun he => h (he ▸ List.mem_cons_self)
      have ih := ih fun hm => h (List.mem_cons_of_mem _ hm)
      cases pre with
      | nil => simp [pathNextHop, hx]
      | cons y pre =>
          rw [List.cons_append, List.cons_append, pathNextHop, if_neg hx]
          exact ih

/-- **The lookup follows a path that visits no node twice.** -/
theorem commNodeLookupRt_eq {rts : ℤ → Option OverlayRtable} {rt : OverlayRtable}
    {entry : OverlayRtableEntry} {src dst nodeId next : ℤ} {pre post : List ℤ}
    (hrt : rts src = some rt) (hentry : overlayRtableGetEntry rt dst = Except.ok (some entry))
    (hpath : entry.path = pre ++ nodeId :: next :: post) (hnodup : entry.path.Nodup) :
    commNodeLookupRt nodeId rts src dst = Except.ok next := by
  have hpre : nodeId ∉ pre := by
    intro hm
    rw [hpath, List.nodup_append] at hnodup
    exact hnodup.2.2 _ hm _ List.mem_cons_self rfl
  simp only [commNodeLookupRt, hrt, hentry, bind, Except.bind, hpath, pathNextHop_eq hpre]

/-! ### Round trip -/

/-- Every number of the entry fits an `int`. -/
structure OverlayRtableEntry.Fits (entry : OverlayRtableEntry) : Prop where
  dstPid : FitsInt entry.dstPid
  hops : FitsInt entry.hops
  metric : FitsInt entry.metric
  width : FitsInt entry.width
  path : ∀ pid ∈ entry.path, FitsInt pid

/-- The entries from index `pid` on are those of a table of `srcpid`: one for every other host. -/
def CompleteFrom (srcpid : ℤ) : ℕ → List (Option OverlayRtableEntry) → Prop
  | _, [] => True
  | pid, entry :: entries =>
      (if pid = srcpid then entry = none
        else ∃ e, entry = some e ∧ e.dstPid = pid ∧ e.Fits) ∧
      CompleteFrom srcpid (pid + 1) entries

/-- A table with an entry for every host but its source, all of whose numbers fit an `int`. -/
structure OverlayRtable.Complete (rt : OverlayRtable) : Prop where
  srcpid : FitsInt rt.srcpid
  length : FitsInt rt.entries.length
  entries : CompleteFrom rt.srcpid 0 rt.entries

theorem readInt_packInt (bo : ByteOrder) {i : ℤ} (hi : FitsInt i) (rest : List Byte) :
    readInt bo (packInt bo i ++ rest) = Except.ok (i, rest) := by
  rw [readInt, unpackInt_packInt bo hi]

theorem readPath_pack (bo : ByteOrder) {path : List ℤ} (h : ∀ pid ∈ path, FitsInt pid)
    (rest : List Byte) :
    readPath bo path.length (path.flatMap (packInt bo) ++ rest) = Except.ok (path, rest) := by
  induction path with
  | nil => rfl
  | cons pid path ih =>
      have ih := ih fun x hx => h x (List.mem_cons_of_mem _ hx)
      rw [List.flatMap_cons, List.append_assoc, List.length_cons, readPath,
        readInt_packInt bo (h pid List.mem_cons_self)]
      simp only [bind, Except.bind, ih]

theorem overlayRtableEntryCreateByUnpack_pack (bo : ByteOrder) {entry : OverlayRtableEntry}
    (h : entry.Fits) (rest : List Byte) :
    overlayRtableEntryCreateByUnpack bo (overlayRtableEntryPack bo entry ++ rest) =
      Except.ok (entry, rest) := by
  have hlen : (entry.hops + 1).toNat = entry.path.length := by
    simp [OverlayRtableEntry.hops]
  have hpos : ¬ entry.hops + 1 < 0 := by
    simp [OverlayRtableEntry.hops]
  simp only [overlayRtableEntryCreateByUnpack, overlayRtableEntryPack, List.append_assoc,
    readInt_packInt bo h.dstPid, readInt_packInt bo h.hops, readInt_packInt bo h.metric,
    readInt_packInt bo h.width, bind, Except.bind, if_neg hpos, hlen, readPath_pack bo h.path]

/-- A complete table is packed without an assertion failing. -/
theorem packEntries_ok (bo : ByteOrder) {srcpid : ℤ} {pid : ℕ}
    {entries : List (Option OverlayRtableEntry)} (h : CompleteFrom srcpid pid entries) :
    ∃ body, packEntries bo srcpid pid entries = Except.ok body ∧
      packLenEntries srcpid pid entries = Except.ok (body.length : ℤ) := by
  induction entries generalizing pid with
  | nil => exact ⟨[], rfl, rfl⟩
  | cons entry entries ih =>
      obtain ⟨hentry, hrest⟩ := h
      obtain ⟨body, hbody, hlen⟩ := ih hrest
      by_cases hpid : (pid : ℤ) = srcpid
      · rw [if_pos hpid] at hentry
        subst hentry
        exact ⟨body, by rw [packEntries, if_pos hpid, hbody],
          by rw [packLenEntries, if_pos hpid, hlen]⟩
      · rw [if_neg hpid] at hentry
        obtain ⟨e, rfl, _, _⟩ := hentry
        refine ⟨overlayRtableEntryPack bo e ++ body, ?_, ?_⟩
        · simp only [packEntries, if_neg hpid, hbody, bind, Except.bind]
        · have hpath : (e.path.flatMap (packInt bo)).length = 4 * e.path.length := by
            induction e.path with
            | nil => rfl
            | cons x path ihp => simp [List.flatMap_cons, ihp]; omega
          simp only [packLenEntries, if_neg hpid, hlen, bind, Except.bind, Except.ok.injEq,
            overlayRtableEntryPackLen, overlayRtableEntryPack, OverlayRtableEntry.hops,
            List.length_append, packInt_length, hpath]
          push_cast
          ring

theorem readEntries_pack (bo : ByteOrder) (before : List (Option OverlayRtableEntry)) {srcpid : ℤ}
    {entries : List (Option OverlayRtableEntry)} {pid : ℕ} (h : CompleteFrom srcpid pid entries)
    {body : List Byte}
    (hbody : packEntries bo srcpid pid entries = Except.ok body)
    (hpid : before.length = pid) (rest : List Byte) :
    readEntries bo srcpid entries.length pid
        ⟨srcpid, before ++ List.replicate entries.length none⟩ (body ++ rest) =
      Except.ok (⟨srcpid, before ++ entries⟩, rest) := by
  induction entries generalizing pid body before with
  | nil =>
      simp only [packEntries, Except.ok.injEq] at hbody
      subst hbody
      simp [readEntries]
  | cons entry entries ih =>
      obtain ⟨hentry, hrest⟩ := h
      have hsplit : before ++ List.replicate (entries.length + 1) (none : Option OverlayRtableEntry) =
          (before ++ [none]) ++ List.replicate entries.length none := by
        simp [List.replicate_succ]
      have hnext : (before ++ [entry]).length = pid + 1 := by simp [hpid]
      rw [List.length_cons, readEntries]
      by_cases hsrc : (pid : ℤ) = srcpid
      · rw [if_pos hsrc] at hentry ⊢
        subst hentry
        rw [packEntries, if_pos hsrc] at hbody
        rw [hsplit, ih _ hrest hbody hnext]
        simp
      · rw [if_neg hsrc] at hentry ⊢
        obtain ⟨e, rfl, hdst, hfits⟩ := hentry
        simp only [packEntries, if_neg hsrc] at hbody
        obtain ⟨body', hbody', hb⟩ := bind_eq_ok.1 hbody
        simp only [Except.ok.injEq] at hb
        subst hb
        have hadd : overlayRtableAddEntry
            ⟨srcpid, before ++ List.replicate (entries.length + 1) none⟩ e =
              Except.ok ⟨srcpid, (before ++ [some e]) ++ List.replicate entries.length none⟩ := by
          have hneg : ¬ e.dstPid < 0 := by omega
          have hnat : e.dstPid.toNat = before.length := by omega
          rw [overlayRtableAddEntry, if_neg hneg, hnat]
          simp [List.replicate_succ]
        rw [List.append_assoc, overlayRtableEntryCreateByUnpack_pack bo hfits]
        simp only [bind, Except.bind, hadd]
        rw [ih _ hrest hbody' (by simp [hpid])]
        simp

/-- **A complete table is unpacked as it was packed**, from a buffer of `overlay_rtable_pack_len`
bytes. -/
theorem overlayRtableCreateByUnpack_pack (bo : ByteOrder) {rt : OverlayRtable} (h : rt.Complete) :
    ∃ buff, overlayRtablePack bo rt = Except.ok buff ∧
      overlayRtablePackLen rt = Except.ok (buff.length : ℤ) ∧
      ∀ rest, overlayRtableCreateByUnpack bo (buff ++ rest) = Except.ok (rt, rest) := by
  obtain ⟨body, hbody, hlen⟩ := packEntries_ok bo h.entries
  refine ⟨packInt bo rt.srcpid ++ packInt bo rt.entries.length ++ body, ?_, ?_, fun rest => ?_⟩
  · simp only [overlayRtablePack, hbody, bind, Except.bind]
  · simp only [overlayRtablePackLen, hlen, bind, Except.bind, Except.ok.injEq, List.length_append,
      packInt_length]
    push_cast
    ring
  · simp only [overlayRtableCreateByUnpack, List.append_assoc, readInt_packInt bo h.srcpid,
      readInt_packInt bo h.length, bind, Except.bind, overlayRtableCreate, Int.toNat_natCast,
      if_neg (Int.not_lt.2 (Int.natCast_nonneg _))]
    have := readEntries_pack bo [] h.entries hbody rfl rest
    simpa using this

/-! ### Tables as `calc_rt` builds them -/

/-- The slot of every host but the source holds an entry for this host, and the slot of the source
is empty. -/
structure OverlayRtable.Full (rt : OverlayRtable) : Prop where
  nentry : FitsInt rt.entries.length
  srcpid : 0 ≤ rt.srcpid ∧ rt.srcpid < rt.entries.length
  own : rt.entries[rt.srcpid.toNat]? = some none
  entry : ∀ pid < rt.entries.length, (pid : ℤ) ≠ rt.srcpid →
    ∃ e, rt.entries[pid]? = some (some e) ∧ e.dstPid = pid ∧ e.path ≠ [] ∧ e.Fits

/-- The entries from an index on, slot by slot. -/
theorem completeFrom_of_slots {srcpid : ℤ} {pid : ℕ} {entries : List (Option OverlayRtableEntry)}
    (hown : ∀ i : ℕ, (pid + i : ℤ) = srcpid → i < entries.length → entries[i]? = some none)
    (hentry : ∀ i : ℕ, i < entries.length → (pid + i : ℤ) ≠ srcpid →
      ∃ e, entries[i]? = some (some e) ∧ e.dstPid = pid + i ∧ e.Fits) :
    CompleteFrom srcpid pid entries := by
  induction entries generalizing pid with
  | nil => trivial
  | cons entry entries ih =>
      refine ⟨?_, ih (fun i hi hlt => ?_) fun i hlt hi => ?_⟩
      · by_cases hpid : (pid : ℤ) = srcpid
        · rw [if_pos hpid]
          simpa using hown 0 (by simpa using hpid) (by simp)
        · rw [if_neg hpid]
          obtain ⟨e, he, hdst, hfits⟩ := hentry 0 (by simp) (by simpa using hpid)
          exact ⟨e, by simpa using he, by simpa using hdst, hfits⟩
      · exact hown (i + 1) (by push_cast at hi ⊢; omega) (by simpa using hlt)
      · obtain ⟨e, he, hdst, hfits⟩ :=
          hentry (i + 1) (by simpa using hlt) (by push_cast at hi ⊢; omega)
        exact ⟨e, he, by push_cast at hdst ⊢; omega, hfits⟩

theorem OverlayRtable.Full.complete {rt : OverlayRtable} (h : rt.Full) : rt.Complete where
  srcpid := by
    have hlen := h.nentry
    have hsrc := h.srcpid
    unfold FitsInt at hlen ⊢
    omega
  length := h.nentry
  entries := by
    refine completeFrom_of_slots (fun i hi _ => ?_) fun i hlt hi => ?_
    · have hown := h.own
      rwa [← hi, Nat.cast_zero, zero_add, Int.toNat_natCast] at hown
    · obtain ⟨e, he, hdst, _, hfits⟩ := h.entry i hlt (by simpa using hi)
      exact ⟨e, he, by simpa using hdst, hfits⟩

/-- **The codec of routing tables.**  A table is packed into as many bytes as `overlay_rtable_pack_len`
says, whatever bytes follow it is unpacked as it was and they are left, and the table that comes back
is packed into the same bytes.  Lengths are exact; an `int` holds those below `2 ^ 31`. -/
theorem overlayRtable_codec (bo : ByteOrder) {rt : OverlayRtable} (h : rt.Full) :
    ∃ buff, overlayRtablePack bo rt = Except.ok buff ∧
      overlayRtablePackLen rt = Except.ok (buff.length : ℤ) ∧
      ∀ rest, ∃ rt', overlayRtableCreateByUnpack bo (buff ++ rest) = Except.ok (rt', rest) ∧
        rt' = rt ∧ overlayRtablePack bo rt' = Except.ok buff := by
  obtain ⟨buff, hpack, hlen, hunpack⟩ := overlayRtableCreateByUnpack_pack bo h.complete
  exact ⟨buff, hpack, hlen, fun rest => ⟨rt, hunpack rest, rfl, hpack⟩⟩

/-- The table of the first of three hosts in a row. -/
def rowTable : OverlayRtable where
  srcpid := 0
  entries := [none, some ⟨1, [0, 1], 5, 100⟩, some ⟨2, [0, 1, 2], 12, -1⟩]

theorem rowTable_full : rowTable.Full where
  nentry := by decide
  srcpid := by decide
  own := rfl
  entry := by
    intro pid hpid hne
    have hlt : pid < 3 := hpid
    match pid, hlt with
    | 0, _ => exact absurd rfl hne
    | 1, _ => exact ⟨_, rfl, rfl, by decide, ⟨by decide, by decide, by decide, by decide, by decide⟩⟩
    | 2, _ => exact ⟨_, rfl, rfl, by decide, ⟨by decide, by decide, by decide, by decide, by decide⟩⟩

theorem overlayRtable_codec_row : ∃ buff, overlayRtablePack ByteOrder.little rowTable =
      Except.ok buff ∧ overlayRtablePackLen rowTable = Except.ok (buff.length : ℤ) ∧
    ∀ rest, ∃ rt', overlayRtableCreateByUnpack ByteOrder.little (buff ++ rest) =
        Except.ok (rt', rest) ∧ rt' = rowTable ∧
      overlayRtablePack ByteOrder.little rt' = Except.ok buff :=
  overlayRtable_codec ByteOrder.little rowTable_full

end DLFree

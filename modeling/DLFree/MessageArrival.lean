/-
**Messages that arrive at a node of a network.**

A node of a network reads the chunks of its own messages into their records, passes others on, and
its user threads receive the messages that are complete.  `Reassembly` has shown what its reads do
when only its own chunks come.  Here is what remains of this between two steps of the node: how far
each message has arrived, which channels write into a record, and which messages are under way.

Between two steps only the bodies count: a header that has been read in part is read again from its
beginning as far as the records are concerned.

Main definitions:

* `Arrivals.Underway` — a channel reads the body of the next chunk of a message;
* `Arrivals.RecordsOk` — what every step keeps in a node and its records.

Main results:

* `Arrivals.RecordsOk.own` — **a read of the next chunk of a message returns**, and counts it when it
  is complete;
* `Arrivals.RecordsOk.pass` — a read of a chunk for another node returns where it returns without
  records;
* `Arrivals.RecordsOk.readers` — the other steps of the node.
-/

import DLFree.RecordReads
import DLFree.ForwardRun

set_option relaxedAutoImplicit false
set_option autoImplicit false

namespace DLFree

/-! ### Readers that stay as they are -/

/-- The reader of the channel `c` stays as it is, or the chunk that it held has been passed on. -/
def KeepsReader (man man' : Ioman (Option ℤ)) (c : Option ℤ) : Prop :=
  ∀ chan, man.heap c = some chan → ∃ chan', man'.heap c = some chan' ∧
    (SameReader chan chan' ∨
      (chan.state = ChannelStatus.blocking ∧ chan'.currBuff = none))

section Readers

variable {c : Option ℤ} {chan : Channel (Option ℤ)} {man man' man'' : Ioman (Option ℤ)}

theorem KeepsReader.of_same (h : SameRead man man' c) :
    KeepsReader man man' c := by
  intro chan hchan
  obtain ⟨chan', hchan', hsame⟩ := h chan hchan
  exact ⟨chan', hchan', Or.inl hsame⟩

theorem KeepsReader.trans (h : KeepsReader man man' c)
    (h' : KeepsReader man' man'' c) : KeepsReader man man'' c := by
  intro chan hchan
  obtain ⟨chan', hchan', hfirst⟩ := h chan hchan
  obtain ⟨chan'', hchan'', hthen⟩ := h' chan' hchan'
  refine ⟨chan'', hchan'', ?_⟩
  rcases hfirst with hsame | ⟨hblocked, hnone⟩ <;> rcases hthen with hsame' | ⟨hblocked', hnone'⟩
  · exact Or.inl ⟨hsame'.state.trans hsame.state, hsame'.currBuff.trans hsame.currBuff,
      hsame'.headerOff.trans hsame.headerOff, hsame'.headerBuff.trans hsame.headerBuff,
      hsame'.msgInfo.trans hsame.msgInfo⟩
  · exact Or.inr ⟨hsame.state.symm.trans hblocked', hnone'⟩
  · exact Or.inr ⟨hblocked, hsame'.currBuff.trans hnone⟩
  · exact Or.inr ⟨hblocked, hnone'⟩

/-- The reader that a chunk moves from has an empty buffer. -/
theorem moveChunk_self (next : Option ℤ) (buff : MsgBuff)
    (hchan : man.heap c = some chan) :
    ∃ chan', (man.moveChunk c next buff).heap c = some chan' ∧ chan'.currBuff = none := by
  have hsame : SameRead (man.modify c (Channel.setState ChannelStatus.active))
      ((man.modify c (Channel.setState ChannelStatus.active)).modify next
        (Channel.appendBuff buff)) c :=
    SameRead.modify (Channel.appendBuff buff) fun _ => ⟨rfl, rfl, rfl, rfl, rfl⟩
  obtain ⟨chan₁, hchan₁, _⟩ := hsame _ (Ioman.heap_modify_eq hchan)
  exact ⟨_, Ioman.heap_modify_eq hchan₁, rfl⟩

/-- A channel that is released has passed on the chunk that it held. -/
theorem Release.keepsReader {d : Option ℤ} (hcore : WaitCore man)
    (h : Release d man man') : KeepsReader man man' c := by
  obtain ⟨w, ws, buff, _, hwq, _, _, _, rfl⟩ := h
  have hdropped : SameRead man (man.modify d (Channel.setWaitQueue ws)) c :=
    SameRead.modify (Channel.setWaitQueue ws) fun _ => ⟨rfl, rfl, rfl, rfl, rfl⟩
  by_cases hc : c = w
  · subst hc
    have hblocking := hcore.waits.blocked_of_mem d c (by rw [hwq]; exact List.mem_cons_self)
    intro chan hchan
    obtain ⟨chan₁, hchan₁, _⟩ := hdropped chan hchan
    obtain ⟨chan', hchan', hnone⟩ := moveChunk_self d buff hchan₁
    exact ⟨chan', hchan', Or.inr ⟨(Ioman.blocking_iff hchan).1 hblocking, hnone⟩⟩
  · exact KeepsReader.of_same (hdropped.trans (SameRead.moveChunk hc))

/-- **A write leaves the readers alone**, but for the channels that it releases. -/
theorem WriteRun.keepsReader {d : Option ℤ} {bytes : List Byte}
    (h : WriteRun d man bytes man') (hcore : WaitCore man) : KeepsReader man man' c := by
  have hsent : ∀ (man : Ioman (Option ℤ)) bs,
      KeepsReader man (man.modify d (Channel.setBuffQueue bs)) c := fun man bs =>
    KeepsReader.of_same
      (SameRead.modify (Channel.setBuffQueue bs) fun _ => ⟨rfl, rfl, rfl, rfl, rfl⟩)
  induction h with
  | refl man => exact KeepsReader.of_same (SameRead.of_heap rfl)
  | step hmicro _ ih =>
      cases hmicro with
      | part _ _ _ _ => exact (hsent _ _).trans (ih hcore.setBuffQueue)
      | whole _ _ => exact (hsent _ _).trans (ih hcore.setBuffQueue)
      | release hrelease =>
          exact (Release.keepsReader hcore hrelease).trans (ih (hrelease.waitCore hcore))

/-- `channel_pipeline_chunk` leaves the other readers alone; its own channel waits, or its buffer is
empty. -/
theorem pipeline_readers {next : Option ℤ} {isMoved : Bool}
    (h : channelPipelineChunk man c next = Except.ok (isMoved, man')) :
    (∀ d, d ≠ c → SameRead man man' d) ∧ ∀ chan', man'.heap c = some chan' →
      chan'.state = ChannelStatus.blocking ∨ chan'.currBuff = none := by
  obtain ⟨chan, buff, _, hchan, _, _, ⟨_, _, rfl⟩ | ⟨_, _, rfl⟩⟩ := channelPipelineChunk_cases h
  · refine ⟨fun d hd => SameRead.moveChunk hd, fun chan' hchan' => Or.inr ?_⟩
    obtain ⟨chan₁, hchan₁, hnone⟩ := moveChunk_self next buff hchan
    obtain rfl := Option.some.inj (hchan'.symm.trans hchan₁)
    exact hnone
  · refine ⟨fun d hd => SameRead.joinWaitQueue hd, fun chan' hchan' => Or.inl ?_⟩
    have hsame : SameRead (man.modify c (Channel.setState ChannelStatus.blocking))
        ((man.modify c (Channel.setState ChannelStatus.blocking)).modify next
          (Channel.appendWaiter c)) c :=
      SameRead.modify _ fun _ => ⟨rfl, rfl, rfl, rfl, rfl⟩
    obtain ⟨chan₁, hchan₁, hread⟩ := hsame _ (Ioman.heap_modify_eq hchan)
    obtain rfl := Option.some.inj (hchan'.symm.trans hchan₁)
    exact hread.state

end Readers

namespace Arrivals

/-! ### What every step keeps -/

variable {ι : Type} [DecidableEq ι]

/-- A channel reads the body of the next chunk of the message `i`. -/
structure Underway (arr : Arrivals (Option ℤ) ι) (bo : ByteOrder) (p : Progress ι)
    (node : CommNode (Option ℤ)) (i : ι) : Prop where
  long : channelMsgHeaderlen ≤ p.pos i
  reading : ∃ chan f, node.man.heap (arr.chan i) = some chan ∧
    chan.state ≠ ChannelStatus.blocking ∧ (arr.chunks i)[p.done i]? = some f ∧
    Reading bo arr.dstId chan f ((f.encode bo).take (p.pos i))

/-- A channel with a buffer reads a body for another node, or the body of a chunk of a message. -/
def BufferOk (arr : Arrivals (Option ℤ) ι) (p : Progress ι) (node : CommNode (Option ℤ))
    (store : DataStore (Option ℤ)) (v : ℤ) : Prop :=
  ∀ chan, node.man.heap (some v) = some chan → chan.state ≠ ChannelStatus.blocking →
    chan.currBuff ≠ none →
      (chan.msgInfo.dstId ≠ arr.dstId ∧ store.extBuff (some v) = none) ∨
        ∃ i, arr.chan i = some v ∧ p.pos i ≠ 0

/-- What every step keeps in a node and its records, when the messages that are `mine` have begun and
users have `taken` messages of each source. -/
structure RecordsOk (arr : Arrivals (Option ℤ) ι) (bo : ByteOrder) (peer : ℤ → Prop)
    (mine : ι → Prop) (taken : ℤ → List DataMsg) (p : Progress ι) (node : CommNode (Option ℤ))
    (store : DataStore (Option ℤ)) : Prop where
  records : ∃ queues : DataQueues, (∀ i, queues.queue i = taken i ++ store.queues.queue i) ∧
    arr.StoreOk p (store.withQueues queues)
  begun : ∀ i, p.done i ≠ 0 ∨ p.pos i ≠ 0 → mine i
  underway : ∀ i, p.pos i ≠ 0 → Underway arr bo p node i
  buffers : ∀ v, peer v → BufferOk arr p node store v

/-- Messages that have begun and are not complete have different decoded `sid`s. -/
def Apart (arr : Arrivals (Option ℤ) ι) (mine : ι → Prop) (done : ι → ℕ) : Prop :=
  ∀ i j, mine i → mine j → done i < arr.count i → done j < arr.count j → arr.sid i = arr.sid j →
    i = j

section Steps

variable {arr : Arrivals (Option ℤ) ι} {bo : ByteOrder} {peer : ℤ → Prop} {mine : ι → Prop}
  {taken : ℤ → List DataMsg} {p p' : Progress ι} {node node' : CommNode (Option ℤ)}
  {store store' : DataStore (Option ℤ)} {chan chan' : Channel (Option ℤ)} {i j : ι} {f : Frame} {v : ℤ}
  {c : Option ℤ} {r more tail : List Byte} {bursts : List (List Byte)} {now : ℚ}

omit [DecidableEq ι] in
/-- A body goes on while its channel is not read. -/
theorem Underway.keep (h : Underway arr bo p node i)
    (hkeep : KeepsReader node.man node'.man (arr.chan i)) (hpos : p'.pos i = p.pos i)
    (hdone : p'.done i = p.done i) : Underway arr bo p' node' i := by
  obtain ⟨chan, f, hchan, hstate, hchunk, hreading⟩ := h.reading
  obtain ⟨chan', hchan', hsame | ⟨hblocked, _⟩⟩ := hkeep chan hchan
  · refine ⟨by rw [hpos]; exact h.long, chan', f, hchan', by rw [hsame.state]; exact hstate,
      by rw [hdone]; exact hchunk, ?_⟩
    rw [hpos]
    generalize (f.encode bo).take (p.pos i) = r at hreading
    cases hreading with
    | header hcurr hoff hlt htake =>
        exact Reading.header (hsame.currBuff.trans hcurr) (hsame.headerOff.trans hoff) hlt
          (by rw [hsame.headerBuff]; exact htake)
    | body hcurr hoff hinfo hlt =>
        exact Reading.body (hsame.currBuff.trans hcurr) (hsame.headerOff.trans hoff)
          (hsame.msgInfo.trans hinfo) hlt
  · exact absurd hblocked hstate

omit [DecidableEq ι] in
/-- A buffer stays where it is while its channel is not read. -/
theorem BufferOk.keep (h : BufferOk arr p node store v)
    (hlive : ∃ chan, node.man.heap (some v) = some chan)
    (hkeep : KeepsReader node.man node'.man (some v))
    (hext : store'.extBuff (some v) = store.extBuff (some v))
    (hpos : ∀ i, arr.chan i = some v → p'.pos i = p.pos i) : BufferOk arr p' node' store' v := by
  intro chan' hchan' hstate' hbusy'
  obtain ⟨chan, hchan⟩ := hlive
  obtain ⟨chan₁, hchan₁, hsame | ⟨_, hnone⟩⟩ := hkeep chan hchan
  · obtain rfl : chan₁ = chan' := Option.some.inj (hchan₁.symm.trans hchan')
    rw [hsame.state] at hstate'
    rw [hsame.currBuff] at hbusy'
    rcases h chan hchan hstate' hbusy' with ⟨hdst, hnone⟩ | ⟨i, hi, hp⟩
    · exact Or.inl ⟨by rw [hsame.msgInfo]; exact hdst, hext.trans hnone⟩
    · exact Or.inr ⟨i, hi, by rw [hpos i hi]; exact hp⟩
  · obtain rfl : chan₁ = chan' := Option.some.inj (hchan₁.symm.trans hchan')
    exact absurd hnone hbusy'

omit [DecidableEq ι] in
/-- **The other steps of a node** leave its records as they are. -/
theorem RecordsOk.readers (h : RecordsOk arr bo peer mine taken p node store)
    (hlive : ∀ v, peer v → ∃ chan, node.man.heap (some v) = some chan)
    (hchan : ∀ i, ∃ v, arr.chan i = some v)
    (hkeep : ∀ v, KeepsReader node.man node'.man (some v)) {mine' : ι → Prop}
    (hmine : ∀ i, mine i → mine' i) : RecordsOk arr bo peer mine' taken p node' store where
  records := h.records
  begun i hi := hmine i (h.begun i hi)
  underway i hi := by
    obtain ⟨v, hv⟩ := hchan i
    exact (h.underway i hi).keep (by rw [hv]; exact hkeep v) rfl rfl
  buffers v hv := (h.buffers v hv).keep (hlive v hv) (hkeep v) rfl fun _ _ => rfl

/-! ### The channel of a body -/

section

omit [DecidableEq ι]

theorem chunk_info (hchunk : (arr.chunks j)[p.done j]? = some f) :
    f.info = (iomanSendChunk (arr.msg j).srcId arr.dstId (arr.msg j).sid (arr.msg j).buff.length
      (p.done j) f.body).info :=
  congrArg Frame.info (DataSend.chunk_eq hchunk)

theorem chunk_dstId (hchunk : (arr.chunks j)[p.done j]? = some f) : f.info.dstId = arr.dstId := by
  rw [chunk_info hchunk]
  rfl

theorem chunk_sid (hchunk : (arr.chunks j)[p.done j]? = some f) :
    wireUint64 f.info.sid = arr.sid j := by
  rw [chunk_info hchunk]
  rfl

/-- What the channel of a body has in its buffer. -/
theorem Underway.body (h : Underway arr bo p node i) (hchan : node.man.heap (arr.chan i) = some chan) :
    ∃ f got, (arr.chunks i)[p.done i]? = some f ∧
      (f.encode bo).take (p.pos i) = packHeader bo f.info ++ got ∧
      p.pos i = channelMsgHeaderlen + got.length ∧
      chan.currBuff = some (f.buff bo arr.dstId got) ∧ chan.msgInfo = f.seen got.length := by
  obtain ⟨chan₁, f, hchan₁, _, hchunk, hreading⟩ := h.reading
  obtain rfl : chan₁ = chan := Option.some.inj (hchan₁.symm.trans hchan)
  have hlong := h.long
  have hlen := @Frame.encode_length bo f
  generalize hr : (f.encode bo).take (p.pos i) = r at hreading
  have hrlen : r.length = min (p.pos i) (f.encode bo).length := by
    rw [← hr, List.length_take]
  cases hreading with
  | header hcurr hoff hlt htake => omega
  | @body got hcurr hoff hinfo hlt =>
      rw [List.length_append, packHeader_length] at hrlen
      exact ⟨f, got, hchunk, hr, by omega, hcurr, hinfo⟩

/-- **Only one message is read over a channel**: it is the one of the first chunk. -/
theorem RecordsOk.alone (h : RecordsOk arr bo peer mine taken p node store)
    (hapart : Apart arr mine p.done) (hj : mine j)
    (hchunk : (arr.chunks j)[p.done j]? = some f)
    (hchan : node.man.heap (arr.chan j) = some chan) (hreading : Reading bo arr.dstId chan f r)
    (hc : arr.chan i = arr.chan j) (hi : p.pos i ≠ 0) : i = j := by
  obtain ⟨g, got, hg, _, _, hcurr, hinfo⟩ := (h.underway i hi).body (by rw [hc]; exact hchan)
  cases hreading with
  | header hnone _ _ _ =>
      rw [hnone] at hcurr
      cases hcurr
  | body _ _ hinfo' _ =>
      have hsid : wireUint64 g.info.sid = wireUint64 f.info.sid :=
        congrArg MsgInfo.sid (hinfo.symm.trans hinfo')
      rw [chunk_sid hg, chunk_sid hchunk] at hsid
      exact hapart i j (h.begun i (Or.inr hi)) hj (DataSend.lt_count hg) (DataSend.lt_count hchunk)
        hsid

end

theorem reach_self (p : Progress ι) (j : ι) : p.reach j (p.pos j) = p := by
  unfold Progress.reach
  rw [Function.update_eq_self]

/-- The records have taken what the channel has read of the first chunk. -/
theorem RecordsOk.catchUp (h : RecordsOk arr bo peer mine taken p node store)
    (hapart : Apart arr mine p.done) (hj : mine j)
    (hchunk : (arr.chunks j)[p.done j]? = some f) (hv : arr.chan j = some v) (hpeer : peer v)
    (hchan : node.man.heap (some v) = some chan) (hstate : chan.state ≠ ChannelStatus.blocking)
    (hreading : Reading bo arr.dstId chan f r)
    {queues : DataQueues} (hstore : arr.StoreOk p (store.withQueues queues)) :
    arr.Next p j f ∧ arr.StoreOk (p.reach j r.length) (store.withQueues queues) := by
  have hchan' : node.man.heap (arr.chan j) = some chan := by
    rw [hv]
    exact hchan
  have halone : ∀ i, arr.chan i = arr.chan j → i ≠ j → p.pos i = 0 := by
    intro i hc hij
    by_contra hi
    exact hij (h.alone hapart hj hchunk hchan' hreading hc hi)
  have hnext : arr.Next p j f := ⟨hchunk, halone⟩
  refine ⟨hnext, ?_⟩
  cases hreading with
  | header hnone _ hlt _ =>
      -- no body is under way on this channel
      have hpos : p.pos j = 0 := by
        by_contra hp
        obtain ⟨_, _, _, _, _, hcurr, _⟩ := (h.underway j hp).body hchan'
        rw [hnone] at hcurr
        cases hcurr
      exact hstore.header hnext (by rw [hpos]; decide) hlt
  | @body got hcurr _ hinfo _ =>
      have hbusy : chan.currBuff ≠ none := by
        rw [hcurr]
        nofun
      have hp : p.pos j ≠ 0 := by
        rcases h.buffers v hpeer chan hchan hstate hbusy with ⟨hother, _⟩ | ⟨i, hi, hpos⟩
        · rw [hinfo, Frame.seen_dstId] at hother
          exact absurd (chunk_dstId hchunk) hother
        · have hreading : Reading bo arr.dstId chan f (packHeader bo f.info ++ got) :=
            Reading.body hcurr ‹_› hinfo ‹_›
          rwa [← h.alone hapart hj hchunk hchan' hreading (hi.trans hv.symm) hpos]
      obtain ⟨g, got', hg, _, hpos, hcurr', _⟩ := (h.underway j hp).body hchan'
      obtain rfl : g = f := Option.some.inj (hg.symm.trans hchunk)
      have hgot : got' = got :=
        List.append_cancel_left (congrArg MsgBuff.data (Option.some.inj (hcurr'.symm.trans hcurr)))
      have hlen : (packHeader bo g.info ++ got).length = p.pos j := by
        rw [hpos, hgot, List.length_append, packHeader_length]
      rw [hlen, reach_self]
      exact hstore

/-! ### A read -/

omit [DecidableEq ι] in
/-- A read of the channel to `v` concerns the messages of this channel. -/
theorem RecordsOk.channel (h : RecordsOk arr bo peer mine taken p node store)
    (hlive : ∀ v, peer v → ∃ chan, node.man.heap (some v) = some chan)
    (hrecords : ∃ queues : DataQueues,
      (∀ i, queues.queue i = taken i ++ store'.queues.queue i) ∧
        arr.StoreOk p' (store'.withQueues queues))
    (hsame : ∀ i, arr.chan i ≠ some v → p'.pos i = p.pos i ∧ p'.done i = p.done i)
    (hothers : ∀ c, c ≠ some v → KeepsReader node.man node'.man c)
    (hext : ∀ c, c ≠ some v → store'.extBuff c = store.extBuff c)
    (hbegun : ∀ i, arr.chan i = some v → p'.done i ≠ 0 ∨ p'.pos i ≠ 0 → mine i)
    (hunderway : ∀ i, arr.chan i = some v → p'.pos i ≠ 0 → Underway arr bo p' node' i)
    (hbuffer : BufferOk arr p' node' store' v) :
    RecordsOk arr bo peer mine taken p' node' store' where
  records := hrecords
  begun i hi := by
    by_cases hc : arr.chan i = some v
    · exact hbegun i hc hi
    · rw [(hsame i hc).1, (hsame i hc).2] at hi
      exact h.begun i hi
  underway i hi := by
    by_cases hc : arr.chan i = some v
    · exact hunderway i hc hi
    · rw [(hsame i hc).1] at hi
      exact (h.underway i hi).keep (hothers _ hc) (hsame i hc).1 (hsame i hc).2
  buffers w hw := by
    by_cases hwv : w = v
    · rw [hwv]
      exact hbuffer
    · have hne : some w ≠ some v := fun he => hwv (Option.some.inj he)
      refine (h.buffers w hw).keep (hlive w hw) (hothers _ hne) (hext _ hne) fun i hi => ?_
      exact (hsame i (by rw [hi]; exact hne)).1

omit [DecidableEq ι] in
/-- **A chunk for another node concerns no message.** -/
theorem RecordsOk.pass (h : RecordsOk arr bo peer mine taken p node store)
    (hlive : ∀ v, peer v → ∃ chan, node.man.heap (some v) = some chan)
    (hid : node.nodeId = arr.dstId) (hpeer : peer v) (hf : f.Ok) (hkind : f.IsChunk)
    (hdst : f.info.dstId ≠ arr.dstId) (hchan : node.man.heap (some v) = some chan)
    (hstate : chan.state ≠ ChannelStatus.blocking) (hreading : Reading bo arr.dstId chan f r)
    (hbytes : r ++ bursts.flatten ++ more = f.encode bo ++ tail) {alive : Bool}
    {script : List RecvEvent}
    (hread : iomanProcessChannelRead bo now node (some v) (dataScript bursts) =
      Except.ok (alive, node', script)) :
    ∃ store', DataStore.iomanProcessChannelRead bo now node store (some v) (dataScript bursts) =
        Except.ok (alive, node', store', script) ∧
      RecordsOk arr bo peer mine taken p node' store' ∧ node'.chunks = node.chunks := by
  rw [← hid] at hreading hdst
  -- no body of a message is under way on this channel
  have hzero : ∀ i, arr.chan i = some v → p.pos i = 0 := by
    intro i hi
    by_contra hp
    obtain ⟨g, got, hg, _, _, hcurr, hinfo⟩ := (h.underway i hp).body (by rw [hi]; exact hchan)
    cases hreading with
    | header hnone _ _ _ =>
        rw [hnone] at hcurr
        cases hcurr
    | body _ _ hinfo' _ =>
        have hsame := congrArg MsgInfo.dstId (hinfo.symm.trans hinfo')
        rw [Frame.seen_dstId, Frame.seen_dstId, chunk_dstId hg, ← hid] at hsame
        exact hdst hsame.symm
  have hext : chan.currBuff ≠ none → store.extBuff (some v) = none := by
    intro hbusy
    rcases h.buffers v hpeer chan hchan hstate hbusy with ⟨_, hnone⟩ | ⟨i, hi, hp⟩
    · exact hnone
    · exact absurd (hzero i hi) hp
  obtain ⟨store', hread', hstore', hforget⟩ :=
    DataStore.iomanProcessChannelRead_pass hf hdst hchan hreading hext hbytes hread
  -- what the read has done to the channels
  have hnode : node'.chunks = node.chunks ∧ (∀ c, c ≠ some v → SameRead node.man node'.man c) ∧
      ∀ chan', node'.man.heap (some v) = some chan' → chan'.state ≠ ChannelStatus.blocking →
        chan'.currBuff ≠ none → chan'.msgInfo.dstId ≠ node.nodeId := by
    have hframe : ReadFrame bo now node (some v) chan f r bursts
        (iomanProcessChannelRead bo now node (some v) (dataScript bursts)) :=
      iomanProcessChannelRead_data hf bursts hchan hreading hbytes
    rw [hread] at hframe
    generalize hres : Except.ok (alive, node', script) = res at hframe
    cases hframe with
    | @part chan₁ r' bursts' hreads hreading' hflat =>
        cases hres
        refine ⟨rfl, fun c hc => SameRead.of_heap (Ioman.heap_put_of_ne hc),
          fun chan' hchan' _ hbusy => ?_⟩
        obtain rfl := Option.some.inj (Ioman.heap_put_self.symm.trans hchan')
        cases hreading' with
        | header hnone _ _ _ => exact absurd hnone hbusy
        | body _ _ hinfo _ =>
            rw [hinfo]
            exact hdst
    | @full chan₁ bursts' hreads hdone hflat =>
        obtain ⟨node₁, hnode₁, hres⟩ := bind_eq_ok.1 hres.symm
        cases hres
        have hinfo := hdone.msgInfo
        obtain ⟨next, isMoved, man', _, hpipe, rfl⟩ := iomanReadDone_pipeline
          (by rw [hinfo]; exact hkind) (by rw [hinfo]; exact hdst) hnode₁
        obtain ⟨hothers, hself⟩ := pipeline_readers hpipe
        refine ⟨rfl, fun c hc => (SameRead.of_heap (Ioman.heap_put_of_ne hc)).trans (hothers c hc),
          fun chan' hchan' hstate' hbusy => ?_⟩
        rcases hself chan' hchan' with hblocked | hnone
        · exact absurd hblocked hstate'
        · exact absurd hnone hbusy
  obtain ⟨hchunks, hothers, hself⟩ := hnode
  refine ⟨store', hread', h.channel (v := v) hlive ?_ (fun i _ => ⟨rfl, rfl⟩)
    (fun c hc => KeepsReader.of_same (hothers c hc)) (fun c hc => ?_) (fun i _ => h.begun i)
    (fun i hi hp => absurd (hzero i hi) hp) (fun chan' hchan' hstate₁ hbusy => ?_), hchunks⟩
  · obtain ⟨queues, hqueues, hok⟩ := h.records
    rcases hstore' with rfl | rfl
    · exact ⟨queues, hqueues, hok⟩
    · exact ⟨queues, hqueues, hok.setExtBuff hzero⟩
  · rcases hstore' with rfl | rfl
    · rfl
    · exact Function.update_of_ne hc _ _
  · rcases hforget with hnone | ⟨chan₁, hchan₁, hnone⟩
    · rw [← hid]
      exact Or.inl ⟨hself chan' hchan' hstate₁ hbusy, hnone⟩
    · obtain rfl := Option.some.inj (hchan₁.symm.trans hchan')
      exact absurd hnone hbusy

/-- While a header or a body is read, a message is open for the records if it is under way or has
complete chunks. -/
theorem RecordsOk.distinct (h : RecordsOk arr bo peer mine taken p node store)
    (hapart : Apart arr mine p.done) (hj : mine j) (m : ℕ) : arr.Distinct (p.reach j m) := by
  have hmine : ∀ i, arr.Open (p.reach j m) i → mine i := by
    rintro i ⟨_, hopen⟩
    by_cases hij : i = j
    · rw [hij]
      exact hj
    · rw [reach_pos_of_ne p hij, reach_done] at hopen
      refine h.begun i (hopen.imp Nat.ne_of_gt fun hp => ?_)
      unfold channelMsgHeaderlen at hp
      omega
  exact fun i i' hi hi' hsid => hapart i i' (hmine i hi) (hmine i' hi') hi.1 hi'.1 hsid

/-- What a read of a part of the next chunk leaves: a header that is not complete does not count. -/
theorem RecordsOk.own_part (h : RecordsOk arr bo peer mine taken p node store)
    (hlive : ∀ v, peer v → ∃ chan, node.man.heap (some v) = some chan)
    (hj : mine j) (hnext : arr.Next p j f)
    (hv : arr.chan j = some v) (hstate : chan'.state ≠ ChannelStatus.blocking)
    (hreading : Reading bo arr.dstId chan' f r) (hstarts : r <+: f.encode bo)
    (hnode : node' = node.setMan (node.man.put (some v) chan'))
    (hext : ∀ c, c ≠ some v → store'.extBuff c = store.extBuff c)
    (hrecords : ∃ queues : DataQueues,
      (∀ i, queues.queue i = taken i ++ store'.queues.queue i) ∧
        arr.StoreOk (p.reach j r.length) (store'.withQueues queues)) :
    ∃ m, RecordsOk arr bo peer mine taken (p.reach j m) node' store' := by
  have hothers : ∀ c, c ≠ some v → KeepsReader node.man node'.man c := by
    rw [hnode]
    exact fun c hc => KeepsReader.of_same (SameRead.of_heap (Ioman.heap_put_of_ne hc))
  have hself : node'.man.heap (some v) = some chan' := by
    rw [hnode]
    exact Ioman.heap_put_self
  have hsame : ∀ m i, arr.chan i ≠ some v →
      (p.reach j m).pos i = p.pos i ∧ (p.reach j m).done i = p.done i := by
    intro m i hi
    exact ⟨reach_pos_of_ne p (fun he => hi (by rw [he]; exact hv)) m, rfl⟩
  have hbegun : ∀ m i, arr.chan i = some v →
      (p.reach j m).done i ≠ 0 ∨ (p.reach j m).pos i ≠ 0 → mine i := by
    intro m i _ hi
    by_cases hij : i = j
    · rw [hij]
      exact hj
    · rw [reach_pos_of_ne p hij] at hi
      exact h.begun i hi
  have hzero : ∀ i, arr.chan i = some v → i ≠ j → p.pos i = 0 :=
    fun i hi hij => hnext.alone i (hi.trans hv.symm) hij
  obtain ⟨queues, hqueues, hstore⟩ := hrecords
  have hr : r = (f.encode bo).take r.length := List.prefix_iff_eq_take.1 hstarts
  cases hreading with
  | header hnone _ hlt _ =>
      have hback : arr.StoreOk (p.reach j 0) (store'.withQueues queues) := by
        rw [← reach_reach p j r.length 0]
        exact hstore.header (hnext.reach _) (by rw [reach_pos_self]; exact hlt) (by decide)
      have hnot : ∀ i, arr.chan i = some v → (p.reach j 0).pos i = 0 := by
        intro i hi
        by_cases hij : i = j
        · rw [hij]
          exact reach_pos_self p j 0
        · rw [reach_pos_of_ne p hij]
          exact hzero i hi hij
      refine ⟨0, h.channel hlive ⟨queues, hqueues, hback⟩ (hsame 0) hothers hext (hbegun 0)
        (fun i hi hp => absurd (hnot i hi) hp) fun chan₁ hchan₁ _ hbusy => ?_⟩
      obtain rfl := Option.some.inj (hself.symm.trans hchan₁)
      exact absurd hnone hbusy
  | @body got hcurr hoff hinfo hlt =>
      have hlong : (packHeader bo f.info ++ got).length = channelMsgHeaderlen + got.length := by
        rw [List.length_append, packHeader_length]
      have hreading : Reading bo arr.dstId chan' f (packHeader bo f.info ++ got) :=
        Reading.body hcurr hoff hinfo hlt
      generalize packHeader bo f.info ++ got = r at hr hlong hreading hstore
      have hpos : (p.reach j r.length).pos j ≠ 0 := by
        rw [reach_pos_self, hlong]
        unfold channelMsgHeaderlen
        omega
      refine ⟨r.length, h.channel hlive ⟨queues, hqueues, hstore⟩ (hsame _) hothers hext (hbegun _)
        (fun i hi hp => ?_) fun _ _ _ _ => Or.inr ⟨j, hv, hpos⟩⟩
      have hij : i = j := by
        by_contra hij
        rw [reach_pos_of_ne p hij] at hp
        exact hp (hzero i hi hij)
      subst hij
      refine ⟨by rw [reach_pos_self]; omega, chan', f, by rw [hv]; exact hself, hstate,
        hnext.chunk, ?_⟩
      rw [reach_pos_self, ← hr]
      exact hreading

/-- What a read of all of the next chunk leaves. -/
theorem RecordsOk.own_full (h : RecordsOk arr bo peer mine taken p node store)
    (hlive : ∀ v, peer v → ∃ chan, node.man.heap (some v) = some chan)
    (hj : mine j) (hnext : arr.Next p j f) (hv : arr.chan j = some v)
    (hothers : ∀ c, c ≠ some v → KeepsReader node.man node'.man c)
    (hself : ∀ chan, node'.man.heap (some v) = some chan → chan.currBuff = none)
    (hext : ∀ c, c ≠ some v → store'.extBuff c = store.extBuff c)
    (hrecords : ∃ queues : DataQueues,
      (∀ i, queues.queue i = taken i ++ store'.queues.queue i) ∧
        arr.StoreOk (p.finish j) (store'.withQueues queues)) :
    RecordsOk arr bo peer mine taken (p.finish j) node' store' := by
  have hnot : ∀ i, arr.chan i = some v → (p.finish j).pos i = 0 := by
    intro i hi
    by_cases hij : i = j
    · rw [hij]
      exact Function.update_self _ _ _
    · rw [finish_pos_of_ne p hij]
      exact hnext.alone i (hi.trans hv.symm) hij
  refine h.channel hlive hrecords (fun i hi => ?_) hothers hext (fun i hi hp => ?_)
    (fun i hi hp => absurd (hnot i hi) hp) fun chan hchan _ hbusy => absurd (hself chan hchan) hbusy
  · have hij : i ≠ j := fun he => hi (by rw [he]; exact hv)
    exact ⟨finish_pos_of_ne p hij, finish_done_of_ne p hij⟩
  · by_cases hij : i = j
    · rw [hij]
      exact hj
    · rw [finish_done_of_ne p hij, finish_pos_of_ne p hij] at hp
      exact h.begun i hp

/-- **A read of the next chunk of a message** returns; when the chunk is complete, it is handed to
the node and counted. -/
theorem RecordsOk.own (now : ℚ) (h : RecordsOk arr bo peer mine taken p node store)
    (hlive : ∀ v, peer v → ∃ chan, node.man.heap (some v) = some chan)
    (hid : node.nodeId = arr.dstId) (hpeer : peer v) (hapart : Apart arr mine p.done) (hj : mine j)
    (hchunk : (arr.chunks j)[p.done j]? = some f) (hv : arr.chan j = some v)
    (hchan : node.man.heap (some v) = some chan) (hstate : chan.state ≠ ChannelStatus.blocking)
    (hreading : Reading bo arr.dstId chan f r)
    (hbytes : r ++ bursts.flatten ++ more = f.encode bo ++ tail) :
    ∃ node' store' bursts' p',
      DataStore.iomanProcessChannelRead bo now node store (some v) (dataScript bursts) =
        Except.ok (true, node', store', dataScript bursts') ∧
      RecordsOk arr bo peer mine taken p' node' store' ∧
      ((p'.done = p.done ∧ node'.chunks = node.chunks) ∨
        (p'.done = Function.update p.done j (p.done j + 1) ∧
          node'.chunks = node.chunks ++ [f.handed])) := by
  obtain ⟨queues, hqueues, hstore⟩ := h.records
  have hstarts : r <+: f.encode bo := by
    refine List.prefix_of_prefix_length_le ?_ (List.prefix_append (f.encode bo) tail)
      hreading.ne_encode.le
    rw [← hbytes, List.append_assoc]
    exact List.prefix_append _ _
  have hr : r = (f.encode bo).take r.length := List.prefix_iff_eq_take.1 hstarts
  obtain ⟨hnext, hstore₁⟩ := h.catchUp hapart hj hchunk hv hpeer hchan hstate hreading hstore
  have hcall : arr.Call bo (p.reach j r.length) j f bursts := by
    refine ⟨hnext.reach _, ⟨more, tail, ?_⟩, fun n _ _ _ => ?_⟩
    · rw [List.append_assoc] at hbytes
      rw [reach_pos_self]
      have hall : r ++ (bursts.flatten ++ more) = r ++ ((f.encode bo).drop r.length ++ tail) := by
        rw [hbytes, ← List.append_assoc]
        congr 1
        exact (List.take_append_drop r.length _).symm.trans (congrArg (· ++ _) hr.symm)
      exact List.append_cancel_left hall
    · rw [reach_reach]
      exact h.distinct hapart hj n
  obtain ⟨node', store₁, bursts', n, hread, hcount, hok⟩ := hstore₁.read_reading now hid
    (by rw [hv]; exact hchan) (by rw [reach_pos_self, ← hr]; exact hreading) hcall
  rw [hv] at hread
  rw [reach_pos_self] at hcount
  have hdone := hok.store
  rw [reach_advance] at hdone
  -- the same read with the queues that users have taken messages from
  have hclosed : PushClosed fun queues queues' : DataQueues =>
      ∀ i, queues.queue i = taken i ++ queues'.queue i := by
    intro queues queues' msg _ hq i
    rw [queue_push, queue_push, hq, List.append_assoc]
  obtain ⟨queues', hqueues', hread'⟩ :=
    DataStore.iomanProcessChannelRead_rel hclosed hread hqueues
  have hext := fun c (hc : c ≠ some v) => DataStore.iomanProcessChannelRead_extBuff hc hread'
  have hframe : ReadFrame bo now node (some v) chan f r bursts
      (iomanProcessChannelRead bo now node (some v) (dataScript bursts)) :=
    iomanProcessChannelRead_data hnext.ok bursts hchan (by rw [hid]; exact hreading) hbytes
  rw [DataStore.iomanProcessChannelRead_refines hread'] at hframe
  generalize hres : Except.ok (true, node', dataScript bursts') = res at hframe
  cases hframe with
  | @part chan₁ r' bursts₁ hreads hreading' hflat =>
      simp only [Except.ok.injEq, Prod.mk.injEq, true_and] at hres
      obtain ⟨hnode, hscript⟩ := hres
      obtain rfl := dataScript_injective hscript
      have hn : n = r'.length := by
        have hlen := congrArg List.length hflat
        rw [List.length_append, List.length_append] at hlen
        omega
      have hstarts' : r' <+: f.encode bo := by
        refine List.prefix_of_prefix_length_le ?_ (List.prefix_append (f.encode bo) tail)
          hreading'.ne_encode.le
        rw [← hbytes, hflat, List.append_assoc]
        exact List.prefix_append _ _
      rw [Progress.advance, if_neg (by rw [hn]; exact hreading'.ne_encode.ne), hn] at hdone
      rw [hid] at hreading'
      obtain ⟨m, hrecords⟩ := h.own_part hlive hj hnext hv (by rw [hreads.state]; exact hstate)
        hreading' hstarts' hnode hext ⟨store₁.queues, hqueues', hdone⟩
      exact ⟨node', _, bursts', _, hread', hrecords, Or.inl ⟨rfl, by rw [hnode]; rfl⟩⟩
  | @full chan₁ bursts₁ hreads hfull hflat =>
      obtain ⟨node₁, hnode₁, hres⟩ := bind_eq_ok.1 hres.symm
      simp only [Except.ok.injEq, Prod.mk.injEq, true_and] at hres
      obtain ⟨rfl, hscript⟩ := hres
      obtain rfl := dataScript_injective hscript
      have hn : n = (f.encode bo).length := by
        have hlen := congrArg List.length hflat
        rw [List.length_append, List.length_append] at hlen
        omega
      rw [Progress.advance, if_pos hn] at hdone
      have hinfo := hfull.msgInfo
      have hkind : chan₁.msgInfo.kind = MsgKind.data.toInt := by
        rw [hinfo, Frame.seen_kind, hnext.info]
        rfl
      have hdst : f.info.dstId = node.nodeId := (chunk_dstId hchunk).trans hid.symm
      have hnode := iomanReadDone_deliver hkind (by rw [hinfo]; exact hdst) hnode₁
      have hdata : (f.buff bo node.nodeId f.body).data = f.body := by
        unfold Frame.buff
        rw [Frame.start_of_dst hdst]
        rfl
      have hheap : node₁.man = (node.man.put (some v) chan₁).modify (some v)
          (Channel.setCurrBuff none) := by
        rw [hnode]
        rfl
      have hothers : ∀ c, c ≠ some v → KeepsReader node.man node₁.man c := by
        intro c hc
        rw [hheap]
        exact KeepsReader.of_same
          (SameRead.of_heap ((Ioman.heap_modify_of_ne hc).trans (Ioman.heap_put_of_ne hc)))
      have hself : ∀ chan, node₁.man.heap (some v) = some chan → chan.currBuff = none := by
        intro chan' hchan'
        rw [hheap, Ioman.heap_modify_eq Ioman.heap_put_self] at hchan'
        rw [← Option.some.inj hchan']
        rfl
      refine ⟨node₁, _, _, _, hread', h.own_full hlive hj hnext hv hothers hself hext
        ⟨store₁.queues, hqueues', hdone⟩, Or.inr ⟨rfl, ?_⟩⟩
      rw [hnode, hinfo, hdata]
      rfl

end Steps

end Arrivals

end DLFree

import Perps.Proofs.SocketPrivacy

/-! Resubscribing from an id. The range read covers the past up to a bound and the live
reader covers what comes, so there is no gap as long as the bound reaches the point
where the reader is, and the reader does not skip. -/

namespace Perps

open Lib

namespace Ws

variable {ι : Type}

/-- The event of an entry, if it is one that the backfill of a user is to bring. -/
def wanted (userId : Option String) (b : Backfill) (x : OutputEntry) : Option EngineOutputEvent :=
  if b.sinceId < x.id then
    (decodeOutputEvent x.data).filter fun evt => deliverable ⟨userId, b.channels⟩ evt
  else none

/-- What the backfill found, once it has finished. -/
def Stage.found : Stage → Option (List OutputEntry)
  | .finished entries => some entries
  | _ => none

/-- What the socket has not been sent once the backfill has finished is still ahead of
the live reader. -/
def NoGap (s : Server ι) (socket : Socket) : Prop :=
  ∀ b ∈ socket.backfills, ∀ entries ∈ b.stage.found,
    ∀ x ∈ s.output.entries, ∀ evt ∈ wanted socket.data.userId b x,
      .event x.id evt ∈ socket.sent ∨ s.position < x.id ∧ x ∉ entries

/-- What has been fanned out by now is sent or within the bound of the range read. -/
def WithinBound (s : Server ι) (socket : Socket) (b : Backfill) : Prop :=
  ∀ x ∈ s.output.entries, x.id ≤ s.position → ∀ evt ∈ wanted socket.data.userId b x,
    .event x.id evt ∈ socket.sent ∨ x ∈ (s.output.after b.sinceId).take 500

/-- No socket that has read the past is to get the entry. -/
def Unwanted (s : Server ι) (x : OutputEntry) : Prop :=
  ∀ c, ∀ socket ∈ s.sockets c, ∀ b ∈ socket.backfills, b.stage = .requested ∨
    wanted socket.data.userId b x = none

/-- The condition on a step. An entry that comes between two calls from `"$"` is passed
over. -/
def Meets (s : Server ι) : Action ι → Prop
  | .append x => s.lastId = none ∧ s.call = none → Unwanted s x
  | .fetch c i => ∀ socket ∈ s.sockets c, ∀ b ∈ socket.backfills[i]?, WithinBound s socket b
  | _ => True

instance (s : Server ι) (socket : Socket) : Decidable (NoGap s socket) :=
  inferInstanceAs (Decidable (∀ b ∈ socket.backfills, ∀ entries ∈ b.stage.found, _))

instance (s : Server ι) (socket : Socket) (b : Backfill) : Decidable (WithinBound s socket b) :=
  inferInstanceAs (Decidable (∀ x ∈ s.output.entries, _ → ∀ evt ∈ wanted socket.data.userId b x, _))

instance [Fintype ι] (s : Server ι) (x : OutputEntry) : Decidable (Unwanted s x) :=
  inferInstanceAs (Decidable (∀ c, ∀ socket ∈ s.sockets c, ∀ b ∈ socket.backfills, _))

instance [Fintype ι] (s : Server ι) : (a : Action ι) → Decidable (Meets s a)
  | .append _ => inferInstanceAs (Decidable (_ → _))
  | .fetch c i =>
    inferInstanceAs (Decidable (∀ socket ∈ s.sockets c, ∀ b ∈ socket.backfills[i]?, _))
  | .open _ _ | .message _ _ | .close _ | .finish _ _ | .read | .receive | .timeout =>
    inferInstanceAs (Decidable True)

theorem mem_wanted {userId : Option String} {b : Backfill} {x : OutputEntry}
    {evt : EngineOutputEvent} :
    evt ∈ wanted userId b x ↔ b.sinceId < x.id ∧ decodeOutputEvent x.data = some evt ∧
      deliverable ⟨userId, b.channels⟩ evt = true := by
  unfold wanted
  split_ifs with hid
  · rw [Option.mem_def, Option.filter_eq_some_iff]
    exact (and_iff_right hid).symm
  · exact iff_of_false (fun h => nomatch h) fun h => hid h.1

/-! What is sent -/

theorem mem_framesOf {data : SocketData} {e : OutputEntry} {evt : EngineOutputEvent}
    (hdec : decodeOutputEvent e.data = some evt) (hd : deliverable data evt = true) :
    .event e.id evt ∈ framesOf data e := by
  unfold framesOf
  rw [hdec]
  dsimp only
  rw [if_pos hd]
  exact List.mem_singleton_self _

theorem id_of_framesOf {data : SocketData} {e : OutputEntry} {id : StreamId} {evt : EngineOutputEvent}
    (h : .event id evt ∈ framesOf data e) : e.id = id := by
  unfold framesOf at h
  split at h
  · cases h
  · split_ifs at h
    · exact (Frame.event.inj (List.mem_singleton.mp h)).1.symm
    · cases h

/-! The reader -/

structure Reader (s : Server ι) : Prop where
  lastId : ∀ id ∈ s.lastId, s.output.Marks id
  call : ∀ id ∈ s.call, s.output.Marks id
  same : ∀ id ∈ s.call, ∀ id' ∈ s.lastId, id = id'

section Reader

variable {s : Server ι}

theorem Reader.start (output : OutputLog) : Reader (.start output : Server ι) :=
  ⟨fun _ hid => (nomatch hid), fun _ hid => (nomatch hid), fun _ hid => nomatch hid⟩

theorem Reader.marks_position (h : Reader s) : s.output.Marks s.position := by
  unfold Server.position
  cases hcall : s.call with
  | some id => exact h.call id hcall
  | none =>
    cases hlast : s.lastId with
    | some id => exact h.lastId id hlast
    | none => exact s.output.marks_lastId

/-- A call that finds nothing leaves the reader where it is. -/
theorem Reader.position_timeout (h : Reader s) {id : StreamId} (hcall : s.call = some id)
    (hnone : s.output.after id = []) : ({ s with call := none } : Server ι).position = id := by
  unfold Server.position
  dsimp only
  rw [Option.getD_none]
  cases hlast : s.lastId with
  | some id' => exact (h.same id hcall id' hlast).symm
  | none =>
    have hend := (h.call id hcall).last_after
    rw [hnone] at hend
    exact hend.symm

theorem reader_step [DecidableEq ι] {s' : Server ι} {a : Action ι} (h : step s a = some s')
    (hs : Reader s) : Reader s' := by
  cases step_cases h with
  | append hadd =>
    exact ⟨fun id hid => (hs.lastId id hid).add hadd, fun id hid => (hs.call id hid).add hadd, hs.same⟩
  | «open» userId hc => exact ⟨hs.lastId, hs.call, hs.same⟩
  | message msg hc => exact ⟨hs.lastId, hs.call, hs.same⟩
  | close => exact ⟨hs.lastId, hs.call, hs.same⟩
  | fetch hc hi => exact ⟨hs.lastId, hs.call, hs.same⟩
  | finish hc hi => exact ⟨hs.lastId, hs.call, hs.same⟩
  | read hcall =>
    refine ⟨hs.lastId, fun id hid => ?_, fun id hid id' hid' => ?_⟩
    · obtain rfl := Option.some.inj hid
      exact hs.marks_position
    · obtain rfl := Option.some.inj hid
      unfold Server.position
      rw [hcall, Option.mem_def.mp hid']
      rfl
  | @receive id last hcall hlast =>
    have hmem := List.mem_of_mem_take (List.mem_of_getLast? hlast)
    refine ⟨fun id' hid' => ?_, fun _ hid => (nomatch hid), fun _ hid => nomatch hid⟩
    obtain rfl := Option.some.inj hid'
    exact Or.inr ⟨last, (Log.mem_after.mp hmem).1, rfl⟩
  | timeout hcall => exact ⟨hs.lastId, fun _ hid => (nomatch hid), fun _ hid => nomatch hid⟩

end Reader

/-! A socket -/

/-- What a backfill is to bring is on its way. -/
def Covered (s : Server ι) (socket : Socket) (b : Backfill) : Prop :=
  ∀ x ∈ s.output.entries, ∀ evt ∈ wanted socket.data.userId b x,
    match b.stage with
    | .requested => True
    | .fetched entries => .event x.id evt ∈ socket.sent ∨ x ∈ entries ∨ s.position < x.id
    | .finished entries => .event x.id evt ∈ socket.sent ∨ s.position < x.id ∧ x ∉ entries

def Stage.entries : Stage → List OutputEntry
  | .requested => []
  | .fetched entries => entries
  | .finished entries => entries

structure Resumes (s : Server ι) (socket : Socket) : Prop where
  channels : ∀ b ∈ socket.backfills, b.channels ⊆ socket.data.channels
  entries : ∀ b ∈ socket.backfills, b.stage.entries ⊆ s.output.entries
  covered : ∀ b ∈ socket.backfills, Covered s socket b

/-- The socket's later self: it has been sent more, and may have given up channels and
asked for new backfills. -/
structure Continues (s s' : Socket) : Prop where
  userId : s'.data.userId = s.data.userId
  sent : s.sent ⊆ s'.sent
  backfills : ∀ b' ∈ s'.backfills, b'.stage = .requested ∨ ∃ b ∈ s.backfills,
    b'.sinceId = b.sinceId ∧ b'.stage = b.stage ∧ b'.channels ⊆ b.channels
  channels : (∀ b ∈ s.backfills, b.channels ⊆ s.data.channels) →
    ∀ b ∈ s'.backfills, b.channels ⊆ s'.data.channels

theorem same_backfills (s : Socket) : ∀ b' ∈ s.backfills, b'.stage = .requested ∨ ∃ b ∈ s.backfills,
    b'.sinceId = b.sinceId ∧ b'.stage = b.stage ∧ b'.channels ⊆ b.channels :=
  fun b hb => Or.inr ⟨b, hb, rfl, rfl, List.Subset.refl _⟩

theorem Continues.refl (s : Socket) : Continues s s :=
  ⟨rfl, List.Subset.refl _, same_backfills s, id⟩

theorem Continues.trans {a b c : Socket} (h1 : Continues a b) (h2 : Continues b c) :
    Continues a c := by
  refine ⟨h2.userId.trans h1.userId, List.Subset.trans h1.sent h2.sent, fun x hx => ?_,
    fun h => h2.channels (h1.channels h)⟩
  rcases h2.backfills x hx with hnew | ⟨y, hy, hsince, hstage, hchannels⟩
  · exact Or.inl hnew
  · rw [hsince, hstage]
    rcases h1.backfills y hy with hnew | ⟨z, hz, hsince', hstage', hchannels'⟩
    · exact Or.inl hnew
    · exact Or.inr ⟨z, hz, hsince', hstage', List.Subset.trans hchannels hchannels'⟩

theorem continues_send (s : Socket) (frame : Frame) : Continues s (s.send frame) :=
  ⟨rfl, List.subset_append_left _ _, same_backfills s, id⟩

theorem continues_subscribeChannel (s : Socket) (ch : Channel) : Continues s (s.subscribeChannel ch) := by
  unfold Socket.subscribeChannel
  split_ifs
  · exact continues_send s _
  · exact ⟨rfl, List.Subset.refl _, same_backfills s, fun h b hb ch' hch' =>
      mem_insert.mpr (Or.inl (h b hb hch'))⟩

theorem continues_unsubscribeChannel (s : Socket) (ch : Channel) : Continues s (s.unsubscribeChannel ch) := by
  refine ⟨rfl, List.Subset.refl _, fun b' hb' => ?_, fun h b' hb' ch' hch' => ?_⟩
  · obtain ⟨b, hb, rfl⟩ := List.mem_map.mp hb'
    exact Or.inr ⟨b, hb, rfl, rfl, fun ch' hch' => (mem_delete.mp hch').1⟩
  · obtain ⟨b, hb, rfl⟩ := List.mem_map.mp hb'
    obtain ⟨hmem, hne⟩ := mem_delete.mp hch'
    exact mem_delete.mpr ⟨h b hb hmem, hne⟩

theorem continues_startBackfill (s : Socket) (sinceId : StreamId) : Continues s (s.startBackfill sinceId) := by
  refine ⟨rfl, List.Subset.refl _, fun b hb => ?_, fun h b hb => ?_⟩
  · rcases List.mem_append.mp hb with hb | hb
    · exact same_backfills s b hb
    · exact Or.inl (List.mem_singleton.mp hb ▸ rfl)
  · rcases List.mem_append.mp hb with hb | hb
    · exact h b hb
    · exact List.mem_singleton.mp hb ▸ List.Subset.refl _

theorem continues_message (s : Socket) (msg : Option ClientMessage) : Continues s (s.message msg) := by
  cases msg with
  | none => exact continues_send s _
  | some msg =>
    unfold Socket.message
    dsimp only
    split_ifs
    · have hchannels : Continues s ((Socket.requested msg).foldl Socket.subscribeChannel s) :=
        List.foldlRecOn _ _ (.refl s) fun _ hs ch _ => hs.trans (continues_subscribeChannel _ ch)
      have hreply := hchannels.trans (continues_send _ (.subscribed
        ((Socket.requested msg).foldl Socket.subscribeChannel s).data.channels))
      unfold Socket.subscribe
      dsimp only
      cases msg.sinceId with
      | none => exact hreply
      | some sinceId => exact hreply.trans (continues_startBackfill _ sinceId)
    · have hchannels : Continues s ((Socket.requested msg).foldl Socket.unsubscribeChannel s) :=
        List.foldlRecOn _ _ (.refl s) fun _ hs ch _ => hs.trans (continues_unsubscribeChannel _ ch)
      exact hchannels.trans (continues_send _ _)
    · exact .refl s

section Resumes

variable {s s' : Server ι} {socket : Socket}

theorem wanted_mono {userId : Option String} {b b' : Backfill} (hsince : b'.sinceId = b.sinceId)
    (hchannels : b'.channels ⊆ b.channels) {x : OutputEntry} {evt : EngineOutputEvent}
    (h : evt ∈ wanted userId b' x) : evt ∈ wanted userId b x := by
  obtain ⟨hid, hdec, hd⟩ := mem_wanted.mp h
  have hsub : b'.channels ⊆ (SocketData.mk userId b.channels).channels := hchannels
  exact mem_wanted.mpr ⟨hsince ▸ hid, hdec, deliverable_mono hsub hd⟩

theorem Resumes.continues (h : Resumes s socket) {socket' : Socket} (hc : Continues socket socket') :
    Resumes s socket' := by
  refine ⟨hc.channels h.channels, fun b' hb' => ?_, fun b' hb' x hx evt hevt => ?_⟩
  · rcases hc.backfills b' hb' with hnew | ⟨b, hb, -, hstage, -⟩
    · rw [hnew]
      exact List.nil_subset _
    · rw [hstage]
      exact h.entries b hb
  · rw [hc.userId] at hevt
    rcases hc.backfills b' hb' with hnew | ⟨b, hb, hsince, hstage, hchannels⟩
    · rw [hnew]
      trivial
    · have hcov := h.covered b hb x hx evt (wanted_mono hsince hchannels hevt)
      rw [hstage]
      cases hb : b.stage with
      | requested => trivial
      | fetched entries =>
        rw [hb] at hcov
        exact hcov.imp_left fun hsent => hc.sent hsent
      | finished entries =>
        rw [hb] at hcov
        exact hcov.imp_left fun hsent => hc.sent hsent

/-- The reader is where it was, and so is the log. -/
theorem Resumes.congr (h : Resumes s socket) (houtput : s'.output = s.output)
    (hposition : s'.position = s.position) : Resumes s' socket := by
  refine ⟨h.channels, houtput ▸ h.entries, ?_⟩
  unfold Covered
  rw [houtput, hposition]
  exact h.covered

/-- Once the reader has an id or a call, new entries are ahead of it. -/
theorem position_output (output : OutputLog) (h : ¬ (s.lastId = none ∧ s.call = none)) :
    ({ s with output := output } : Server ι).position = s.position := by
  unfold Server.position
  cases hcall : s.call with
  | some id => rfl
  | none =>
    cases hlast : s.lastId with
    | some id => rfl
    | none => exact absurd ⟨hlast, hcall⟩ h

theorem Resumes.append (h : Resumes s socket) (hr : Reader s) {x : OutputEntry} {output : OutputLog}
    (hadd : s.output.add x = some output)
    (hskip : s.lastId = none ∧ s.call = none → ∀ b ∈ socket.backfills, b.stage = .requested ∨
      wanted socket.data.userId b x = none) : Resumes { s with output := output } socket := by
  have hold {y : OutputEntry} (hy : y ∈ s.output.entries)
      (hlt : s.position < y.id) : ({ s with output := output } : Server ι).position < y.id := by
    by_cases hnone : s.lastId = none ∧ s.call = none
    · unfold Server.position at hlt
      rw [hnone.1, hnone.2] at hlt
      exact absurd hlt (not_lt.mpr (Log.le_lastId hy))
    · rwa [position_output output hnone]
  have hnew (b : Backfill) (hb : b ∈ socket.backfills) (hstage : b.stage ≠ .requested)
      (hwanted : wanted socket.data.userId b x ≠ none) :
      ({ s with output := output } : Server ι).position < x.id := by
    have hreader : ¬ (s.lastId = none ∧ s.call = none) := fun hnone =>
      (hskip hnone b hb).elim hstage hwanted
    rw [position_output output hreader]
    exact hr.marks_position.lt_of_add hadd
  have hout (b : Backfill) (hb : b ∈ socket.backfills) : x ∉ b.stage.entries := fun hmem =>
    lt_irrefl x.id ((Log.add_eq hadd).2.2 x (h.entries b hb hmem))
  refine ⟨h.channels, fun b hb y hy => (Log.mem_of_add hadd).mpr (Or.inl (h.entries b hb hy)),
    fun b hb y hy evt hevt => ?_⟩
  rcases (Log.mem_of_add hadd).mp hy with hy | rfl
  · have hcov := h.covered b hb y hy evt hevt
    cases hstage : b.stage with
    | requested => trivial
    | fetched entries =>
      rw [hstage] at hcov
      exact hcov.imp_right fun hrest => hrest.imp_right (hold hy)
    | finished entries =>
      rw [hstage] at hcov
      exact hcov.imp_right fun hrest => ⟨hold hy hrest.1, hrest.2⟩
  · have hwanted : wanted socket.data.userId b y ≠ none := by
      rw [Option.mem_def.mp hevt]
      exact Option.some_ne_none evt
    have hlt := fun hstage => hnew b hb hstage hwanted
    have hout := hout b hb
    cases hstage : b.stage with
    | requested => trivial
    | fetched entries => exact Or.inr (Or.inr (hlt (by rw [hstage]; exact Stage.noConfusion)))
    | finished entries =>
      rw [hstage] at hout
      exact Or.inr ⟨hlt (by rw [hstage]; exact Stage.noConfusion), hout⟩

theorem Resumes.set_backfill (h : Resumes s socket) (i : ℕ) {b : Backfill}
    (hchannels : b.channels ⊆ socket.data.channels) (hentries : b.stage.entries ⊆ s.output.entries)
    (hcov : Covered s socket b) :
    Resumes s { socket with backfills := socket.backfills.set i b } := by
  refine ⟨fun b' hb' => ?_, fun b' hb' => ?_, fun b' hb' => ?_⟩
  · rcases List.mem_or_eq_of_mem_set hb' with hb' | rfl
    · exact h.channels b' hb'
    · exact hchannels
  · rcases List.mem_or_eq_of_mem_set hb' with hb' | rfl
    · exact h.entries b' hb'
    · exact hentries
  · rcases List.mem_or_eq_of_mem_set hb' with hb' | rfl
    · exact h.covered b' hb'
    · exact hcov

theorem Resumes.fetch (h : Resumes s socket) {i : ℕ} {sinceId : StreamId} {channels : List Channel}
    (hi : socket.backfills[i]? = some ⟨sinceId, channels, .requested⟩)
    (hbound : WithinBound s socket ⟨sinceId, channels, .requested⟩) :
    Resumes s { socket with
      backfills := socket.backfills.set i
        ⟨sinceId, channels, .fetched ((s.output.after sinceId).take 500)⟩ } := by
  have hchannels := h.channels _ (List.mem_of_getElem? hi)
  refine h.set_backfill i hchannels (fun x hx => ?_) fun x hx evt hevt => ?_
  · exact (Log.mem_after.mp (List.mem_of_mem_take hx)).1
  · rcases le_or_gt x.id s.position with hle | hlt
    · exact (hbound x hx hle evt hevt).imp_right Or.inl
    · exact Or.inr (Or.inr hlt)

/-- A wanted entry that the socket goes through has its event sent. -/
theorem Resumes.sent (h : Resumes s socket) {b : Backfill} (hb : b ∈ socket.backfills)
    {entries : List OutputEntry} {x : OutputEntry} (hx : x ∈ entries) {evt : EngineOutputEvent}
    (hevt : evt ∈ wanted socket.data.userId b x) :
    .event x.id evt ∈ socket.sent ++ entries.flatMap (framesOf socket.data) := by
  obtain ⟨-, hdec, hd⟩ := mem_wanted.mp hevt
  exact List.mem_append_right _ (List.mem_flatMap.mpr
    ⟨x, hx, mem_framesOf hdec (deliverable_mono (h.channels b hb) hd)⟩)

theorem continues_sent (socket : Socket) (frames : List Frame) :
    Continues socket { socket with sent := socket.sent ++ frames } :=
  ⟨rfl, List.subset_append_left _ _, same_backfills socket, id⟩

theorem Resumes.finish (h : Resumes s socket) {i : ℕ} {sinceId : StreamId} {channels : List Channel}
    {entries : List OutputEntry}
    (hi : socket.backfills[i]? = some ⟨sinceId, channels, .fetched entries⟩) :
    Resumes s { entries.foldl Socket.backfillEntry socket with
      backfills := socket.backfills.set i ⟨sinceId, channels, .finished entries⟩ } := by
  have hb := List.mem_of_getElem? hi
  rw [foldl_backfillEntry]
  have hchannels := h.channels _ hb
  have hentries := h.entries _ hb
  refine (h.continues (continues_sent socket _)).set_backfill i hchannels hentries
    fun x hx evt hevt => ?_
  by_cases hmem : x ∈ entries
  · exact Or.inl (h.sent hb hmem hevt)
  · rcases h.covered _ hb x hx evt hevt with hsent | hmem' | hlt
    · exact Or.inl (List.mem_append_left _ hsent)
    · exact absurd hmem' hmem
    · exact Or.inr ⟨hlt, hmem⟩

/-- The reader goes on by a batch, which it fans out. -/
theorem Resumes.receive (h : Resumes s socket) (hin : InStep socket) {id : StreamId}
    {last : OutputEntry} (hcall : s.call = some id)
    (hlast : ((s.output.after id).take 200).getLast? = some last)
    (hs' : s'.output = s.output ∧ s'.position = last.id) :
    Resumes s' (((s.output.after id).take 200).foldl Socket.fanOut socket) := by
  have hposition : s.position = id := by
    unfold Server.position
    rw [hcall]
    rfl
  rw [hin.foldl_fanOut, foldl_backfillEntry]
  refine ⟨h.channels, hs'.1 ▸ h.entries, fun b hb x hx evt hevt => ?_⟩
  rw [hs'.1] at hx
  have hpassed (hlt : s.position < x.id) : .event x.id evt ∈ socket.sent ++
      ((s.output.after id).take 200).flatMap (framesOf socket.data) ∨ s'.position < x.id := by
    rw [hs'.2]
    rcases le_or_gt x.id last.id with hle | hlt'
    · have hafter := Log.mem_after.mpr ⟨hx, hposition ▸ hlt⟩
      exact Or.inl (h.sent hb (Log.mem_take_after hlast hafter hle) hevt)
    · exact Or.inr hlt'
  have hcov := h.covered b hb x hx evt hevt
  cases hstage : b.stage with
  | requested => trivial
  | fetched entries =>
    rw [hstage] at hcov
    rcases hcov with hsent | hmem | hlt
    · exact Or.inl (List.mem_append_left _ hsent)
    · exact Or.inr (Or.inl hmem)
    · exact (hpassed hlt).imp_right Or.inr
  | finished entries =>
    rw [hstage] at hcov
    rcases hcov with hsent | ⟨hlt, hout⟩
    · exact Or.inl (List.mem_append_left _ hsent)
    · exact (hpassed hlt).imp_right fun hlt' => ⟨hlt', hout⟩

theorem Resumes.noGap (h : Resumes s socket) : NoGap s socket := by
  intro b hb entries hfound x hx evt hevt
  have hcov := h.covered b hb x hx evt hevt
  cases hstage : b.stage with
  | requested => exact nomatch hstage ▸ hfound
  | fetched entries' => exact nomatch hstage ▸ hfound
  | finished entries' =>
    rw [hstage] at hcov hfound
    obtain rfl := Option.some.inj hfound
    exact hcov

end Resumes

theorem resumes_step [DecidableEq ι] {s s' : Server ι} {a : Action ι} (h : step s a = some s')
    (hC : Meets s a) (hr : Reader s) (hc : Each s Confined) (hs : Each s (Resumes s)) :
    Each s' (Resumes s') := by
  have hset {c : ι} {socket' : Socket} (hsocket' : Resumes s socket') :
      Each (s.set c (some socket')) (Resumes (s.set c (some socket'))) :=
    (hs.set hsocket').imp fun _ hres => hres.congr rfl rfl
  cases step_cases h with
  | append hadd =>
    exact fun c socket hsocket => (hs c socket hsocket).append hr hadd fun hnone =>
      hC hnone c socket hsocket
  | «open» userId hdown =>
    exact hset ⟨fun _ hb => absurd hb List.not_mem_nil, fun _ hb => absurd hb List.not_mem_nil,
      fun _ hb => absurd hb List.not_mem_nil⟩
  | message msg hsocket => exact hset ((hs _ _ hsocket).continues (continues_message _ msg))
  | close => exact hs.close.imp fun _ hres => hres.congr rfl rfl
  | fetch hsocket hi => exact hset ((hs _ _ hsocket).fetch hi (hC _ hsocket _ hi))
  | finish hsocket hi => exact hset ((hs _ _ hsocket).finish hi)
  | read hcall =>
    refine hs.imp fun _ hres => hres.congr rfl ?_
    unfold Server.position
    rw [hcall]
    rfl
  | receive hcall hlast =>
    intro c socket' hsocket'
    obtain ⟨socket, hsocket, rfl⟩ := Option.map_eq_some_iff.mp hsocket'
    exact (hs c socket hsocket).receive (hc c socket hsocket).toInStep hcall hlast ⟨rfl, rfl⟩
  | @timeout id hcall hnone =>
    refine hs.imp fun _ hres => hres.congr rfl ?_
    rw [hr.position_timeout hcall hnone]
    unfold Server.position
    rw [hcall]
    rfl

/-- In a run that meets the condition, a finished backfill leaves no gap. -/
theorem runs_noGap [DecidableEq ι] (output : OutputLog) (as : List (Action ι)) (s : Server ι)
    (hC : Along step Meets (.start output) as) (hrun : runs step (.start output) as = some s) :
    Each s (NoGap s) := by
  have hinv : Reader s ∧ Each s Confined ∧ Each s (Resumes s) :=
    runs_invariant (I := fun s => Reader s ∧ Each s Confined ∧ Each s (Resumes s))
      (fun _ _ _ hC hstep h => ⟨reader_step hstep h.1, confined_step hstep h.2.1,
        resumes_step hstep hC h.1 h.2.1 h.2.2⟩)
      ⟨Reader.start output, each_start output _, each_start output _⟩ hC hrun
  exact hinv.2.2.imp fun _ hres => hres.noGap

namespace Fixture

def delta : DraftOutput := .orderBookDelta ⟨"BTC", .Bid, 100, 1⟩

def deltaEvent : EngineOutputEvent := ⟨⟨"id", 0, "engine", 1, none, none, none⟩, delta⟩

theorem entry_lt {a b : ℕ} (h : a < b) : (⟨a, 0⟩ : StreamId) < ⟨b, 0⟩ := by
  refine not_le.mp fun hle => ?_
  have hle := (StreamId.le_iff _ _).mp hle
  dsimp only at hle
  omega

theorem wanted_delta {ms : ℕ} (h : 0 < ms) (stage : Stage) :
    deltaEvent ∈ wanted none ⟨⟨0, 0⟩, [.orderbook], stage⟩ (entry ms delta) := by
  have hdec : decodeOutputEvent (some deltaEvent) = some deltaEvent := by decide +kernel
  have hd : deliverable ⟨none, [.orderbook]⟩ deltaEvent = true := by decide +kernel
  exact mem_wanted.mpr ⟨entry_lt h, hdec, hd⟩

/-- The log holds as many entries as are asked for. -/
def logOf (n : ℕ) : OutputLog where
  entries := (List.range n).map fun k => entry (k + 1) delta
  sorted := List.pairwise_map.mpr (List.pairwise_lt_range.imp fun hlt => entry_lt (by omega))
  positive := by
    intro x hx
    obtain ⟨k, -, rfl⟩ := List.mem_map.mp hx
    exact entry_lt (by omega)

theorem mem_logOf {n : ℕ} {x : OutputEntry} :
    x ∈ (logOf n).entries ↔ ∃ k < n, entry (k + 1) delta = x := by
  unfold logOf
  rw [List.mem_map]
  simp only [List.mem_range]

theorem mem_take_logOf {n m : ℕ} {x : OutputEntry} (hx : x ∈ ((logOf n).after ⟨0, 0⟩).take m) :
    ∃ k < m, entry (k + 1) delta = x := by
  have hall : (logOf n).after ⟨0, 0⟩ = (logOf n).entries :=
    List.filter_eq_self.mpr fun x hx => decide_eq_true ((logOf n).positive x hx)
  rw [hall] at hx
  unfold logOf at hx
  rw [← List.map_take, List.take_range] at hx
  obtain ⟨k, hk, rfl⟩ := List.mem_map.mp hx
  exact ⟨k, (List.mem_range.mp hk).trans_le (min_le_left _ _), rfl⟩

/-- A socket asks for everything in the log. -/
def resubscribe : List (Action Unit) :=
  [.read, .open () none,
    .message () (some ⟨some "subscribe", some ["orderbook"], some ⟨0, 0⟩⟩), .fetch () 0, .finish () 0]

/-- The same while new entries come, before and after the range read. -/
def resume : List (Action Unit) :=
  [.read, .open () none,
    .message () (some ⟨some "subscribe", some ["orderbook"], some ⟨0, 0⟩⟩),
    .append (entry 4 delta), .receive, .fetch () 0, .append (entry 5 delta), .finish () 0, .read,
    .receive]

theorem runs_resubscribe (output : OutputLog) : ∃ s, runs step (.start output) resubscribe = some s ∧
    s.output = output ∧ s.position = output.lastId ∧
      s.sockets () = some ⟨⟨none, [.orderbook]⟩, ["orderbook"],
        [⟨⟨0, 0⟩, [.orderbook], .finished ((output.after ⟨0, 0⟩).take 500)⟩],
        [.welcome false, .subscribed [.orderbook]] ++
          ((output.after ⟨0, 0⟩).take 500).flatMap (framesOf ⟨none, [.orderbook]⟩)⟩ := by
  refine ⟨_, rfl, rfl, rfl, ?_⟩
  have hfinish := foldl_backfillEntry ⟨⟨none, [.orderbook]⟩, ["orderbook"],
    [⟨⟨0, 0⟩, [.orderbook], .fetched ((output.after ⟨0, 0⟩).take 500)⟩],
    [.welcome false, .subscribed [.orderbook]]⟩ ((output.after ⟨0, 0⟩).take 500)
  exact congrArg (fun socket : Socket => some { socket with
    backfills := [⟨⟨0, 0⟩, [.orderbook], .finished ((output.after ⟨0, 0⟩).take 500)⟩] }) hfinish

end Fixture

open Ws.Fixture in
theorem runs_noGap_resume : ∃ s, runs step (.start (logOf 3)) resume = some s ∧
    Each s (NoGap s) := by
  have hsome : (runs step (.start (logOf 3)) resume).isSome := by decide +kernel
  obtain ⟨s, hs⟩ := Option.isSome_iff_exists.mp hsome
  exact ⟨s, hs, runs_noGap _ resume s (by decide +kernel) hs⟩

open Ws.Fixture in
/-- The range read ends one entry before the point where the live reader starts. -/
theorem not_runs_noGap_long : ¬ ∀ s, runs step (.start (logOf 501)) resubscribe = some s →
    Each s (NoGap s) := by
  intro h
  have hlast : entry 501 delta ∈ (logOf 501).entries := mem_logOf.mpr ⟨500, by omega, rfl⟩
  obtain ⟨s, hs, houtput, hposition, hsocket⟩ := runs_resubscribe (logOf 501)
  rcases h s hs () _ hsocket _ (List.mem_singleton_self _) _ rfl (entry 501 delta) (houtput ▸ hlast)
    deltaEvent (wanted_delta (by omega) _) with hsent | ⟨hahead, -⟩
  · rcases List.mem_append.mp hsent with hsent | hsent
    · exact absurd hsent (by decide)
    · obtain ⟨x, hx, hframe⟩ := List.mem_flatMap.mp hsent
      obtain ⟨k, hk, rfl⟩ := mem_take_logOf hx
      have hid := congrArg StreamId.ms (id_of_framesOf hframe)
      dsimp only [entry] at hid
      omega
  · rw [hposition] at hahead
    exact absurd (Log.le_lastId hlast) (not_le.mpr hahead)

end Ws

end Perps

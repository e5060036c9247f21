import Perps.Events.Codec
import Perps.Lib.OrdMap
import Perps.Streams.Ids

/-! The api's engine client: `submitCommand` registers a waiter for the events
that answer a command, `tailOutput` resolves it with the first event of the
command's correlation id that has one of the awaited types. -/

namespace Perps

open Lib

structure CommandInput where
  commandId : Option String
  payload : InputPayload
  deriving DecidableEq, Repr

/-- `none` where the schema's `parse` throws. -/
def buildEvent (cmd : CommandInput) (eventId : String) (ts : ℕ) (correlationId : String) :
    Option EngineInputEvent :=
  let event : EngineInputEvent :=
    { eventId := eventId
      ts := ts
      source := "api"
      schemaVersion := SCHEMA_VERSION
      correlationId := some correlationId
      causationId := none
      commandId := cmd.commandId
      payload := cmd.payload }
  if engineInputEventSchema event then some event else none

theorem buildEvent_eq_some {cmd : CommandInput} {eventId : String} {ts : ℕ} {correlationId : String}
    {e : EngineInputEvent} (h : buildEvent cmd eventId ts correlationId = some e) :
    engineInputEventSchema e ∧ e.payload = cmd.payload ∧ e.correlationId = some correlationId ∧
      correlationId ≠ "" := by
  unfold buildEvent at h
  dsimp only at h
  split_ifs at h with hs
  obtain rfl := Option.some.inj h
  exact ⟨hs, rfl, rfl, hs.1.2.2.2.1⟩

/-- The event types that a waiter matches. -/
structure Waiter where
  matchTypes : List EngineOutputEventType
  deriving DecidableEq, Repr

structure EngineClient where
  commandWaiters : OrdMap String Waiter
  /-- The last entry read, `none` for `$`. -/
  lastId : Option StreamId
  /-- The promises that are resolved, with `none` for `null`. -/
  replies : List (String × Option EngineOutputEvent)
  deriving DecidableEq

namespace EngineClient

def init : EngineClient := ⟨OrdMap.empty, none, []⟩

/-- Remove the waiter and resolve its promise. -/
def resolve (c : EngineClient) (correlationId : String) (reply : Option EngineOutputEvent) :
    EngineClient :=
  { c with
    commandWaiters := c.commandWaiters.erase correlationId
    replies := c.replies ++ [(correlationId, reply)] }

/-- The body of the loop in `tailOutput`. -/
def tailMessage (c : EngineClient) (id : StreamId) (data : Option EngineOutputEvent) :
    EngineClient :=
  let c := { c with lastId := some id }
  match decodeOutputEvent data with
  | none => c
  | some evt =>
    match evt.correlationId with
    | none => c
    | some corr =>
      if corr = "" then c
      else
        match c.commandWaiters.get? corr with
        | none => c
        | some waiter =>
          if evt.payload.eventType ∈ waiter.matchTypes then c.resolve corr (some evt) else c

/-- What can happen at the client: a command is submitted, its timer fires or
its enqueueing fails, `tailOutput` reads an entry. -/
inductive Action where
  | submitCommand (correlationId : String) (resolveOn : List EngineOutputEventType)
  | timeout (correlationId : String)
  | enqueueFailed (correlationId : String)
  | message (id : StreamId) (data : Option EngineOutputEvent)
  deriving DecidableEq, Repr

/-- A promise that is already resolved does not change. -/
def giveUp (c : EngineClient) (correlationId : String) : EngineClient :=
  if c.commandWaiters.has correlationId then c.resolve correlationId none else c

def step (c : EngineClient) : Action → EngineClient
  | .submitCommand correlationId resolveOn =>
    { c with commandWaiters := c.commandWaiters.set correlationId ⟨resolveOn⟩ }
  | .timeout correlationId => c.giveUp correlationId
  | .enqueueFailed correlationId => c.giveUp correlationId
  | .message id data => c.tailMessage id data

def runActions (c : EngineClient) (acts : List Action) : EngineClient := acts.foldl step c

/-- The entry carries an event with the correlation id. -/
def carries (correlationId : String) (data : Option EngineOutputEvent) : Bool :=
  data.any fun evt => evt.correlationId = some correlationId

/-- The entries with the correlation id that the actions read. -/
def heard (correlationId : String) (acts : List Action) : List (Option EngineOutputEvent) :=
  acts.filterMap fun
    | .message _ data => if carries correlationId data then some data else none
    | _ => none

/-- The first event of an awaited type. -/
def firstMatch (types : List EngineOutputEventType) (entries : List (Option EngineOutputEvent)) :
    Option EngineOutputEvent :=
  (entries.filterMap decodeOutputEvent).find? fun evt => evt.payload.eventType ∈ types

theorem firstMatch_append (types : List EngineOutputEventType)
    (xs ys : List (Option EngineOutputEvent)) :
    firstMatch types (xs ++ ys) = (firstMatch types xs).or (firstMatch types ys) := by
  simp only [firstMatch, List.filterMap_append, List.find?_append]

theorem heard_append (corr : String) (xs ys : List Action) :
    heard corr (xs ++ ys) = heard corr xs ++ heard corr ys := List.filterMap_append

section Waiting

variable {corr : String} {types : List EngineOutputEventType}

/-- The waiter is there and nothing heard matches, or it is gone and can only
have been resolved by the first match. -/
inductive Waiting (corr : String) (types : List EngineOutputEventType) (c : EngineClient)
    (entries : List (Option EngineOutputEvent)) : Prop
  | pending (hw : c.commandWaiters.get? corr = some ⟨types⟩) (hr : ∀ r, (corr, r) ∉ c.replies)
    (hm : firstMatch types entries = none) : Waiting corr types c entries
  | done (hw : c.commandWaiters.get? corr = none)
    (hm : ∀ evt, (corr, some evt) ∈ c.replies → firstMatch types entries = some evt) :
    Waiting corr types c entries

/-- What concerns other commands does not matter. -/
theorem Waiting.congr {c c' : EngineClient} {entries : List (Option EngineOutputEvent)}
    (h : Waiting corr types c entries)
    (hw : c'.commandWaiters.get? corr = c.commandWaiters.get? corr)
    (hr : ∀ r, (corr, r) ∈ c'.replies ↔ (corr, r) ∈ c.replies) : Waiting corr types c' entries := by
  cases h with
  | pending hw' hr' hm => exact .pending (hw.trans hw') (fun r hmem => hr' r ((hr r).mp hmem)) hm
  | done hw' hm => exact .done (hw.trans hw') fun evt hmem => hm evt ((hr _).mp hmem)

theorem Waiting.resolve_other {c : EngineClient} {entries : List (Option EngineOutputEvent)}
    (h : Waiting corr types c entries) {other : String} (hne : corr ≠ other)
    (reply : Option EngineOutputEvent) : Waiting corr types (c.resolve other reply) entries := by
  refine h.congr ?_ fun r => ?_
  · exact (OrdMap.get?_erase _ _ _).trans (if_neg hne)
  · simp [resolve, hne]

theorem Waiting.giveUp {c : EngineClient} {entries : List (Option EngineOutputEvent)}
    (h : Waiting corr types c entries) (other : String) :
    Waiting corr types (c.giveUp other) entries := by
  unfold EngineClient.giveUp
  split_ifs with hhas
  · by_cases hne : corr = other
    · subst hne
      cases h with
      | pending hw hr hm =>
        refine .done ((OrdMap.get?_erase _ _ _).trans (if_pos rfl)) fun evt hmem => ?_
        rcases List.mem_append.mp hmem with hmem | hmem
        · exact absurd hmem (hr _)
        · simp at hmem
      | done hw hm => simp [OrdMap.has, hw] at hhas
    · exact h.resolve_other hne none
  · exact h

/-- Entries of other commands do not resolve the waiter. -/
theorem Waiting.message_other {c : EngineClient} {entries : List (Option EngineOutputEvent)}
    (h : Waiting corr types c entries) (id : StreamId) {data : Option EngineOutputEvent}
    (hdata : carries corr data = false) : Waiting corr types (c.tailMessage id data) entries := by
  have hread : Waiting corr types { c with lastId := some id } entries :=
    h.congr rfl fun _ => Iff.rfl
  unfold tailMessage
  cases hdec : decodeOutputEvent data with
  | none => exact hread
  | some evt =>
    obtain ⟨rfl, -, -⟩ := decodeWith_eq_some.mp hdec
    dsimp only
    cases hc : evt.correlationId with
    | none => exact hread
    | some other =>
      have hne : corr ≠ other := by
        rintro rfl
        simp [carries, hc] at hdata
      dsimp only
      split_ifs
      · exact hread
      · cases c.commandWaiters.get? other with
        | none => exact hread
        | some waiter =>
          dsimp only
          split_ifs
          · exact hread.resolve_other hne _
          · exact hread

/-- An entry of the command itself. -/
theorem Waiting.message_own {c : EngineClient} {entries : List (Option EngineOutputEvent)}
    (h : Waiting corr types c entries) (hcorr : corr ≠ "") (id : StreamId)
    {data : Option EngineOutputEvent} (hdata : carries corr data = true) :
    Waiting corr types (c.tailMessage id data) (entries ++ [data]) := by
  unfold tailMessage
  cases hdec : decodeOutputEvent data with
  | none =>
    have hnone : firstMatch types [data] = none := by simp [firstMatch, hdec]
    cases h with
    | pending hw hr hm => exact .pending hw hr (by rw [firstMatch_append, hm, hnone]; rfl)
    | done hw hm =>
      refine .done hw fun evt hmem => ?_
      rw [firstMatch_append, hm evt hmem]
      rfl
  | some evt =>
    obtain ⟨rfl, -, -⟩ := decodeWith_eq_some.mp hdec
    have hc : evt.correlationId = some corr := by simpa [carries] using hdata
    dsimp only
    rw [hc]
    dsimp only
    rw [if_neg hcorr]
    cases h with
    | pending hw hr hm =>
      rw [hw]
      dsimp only
      split_ifs with htype
      · refine .done ((OrdMap.get?_erase _ _ _).trans (if_pos rfl)) fun evt' hmem => ?_
        rcases List.mem_append.mp hmem with hmem | hmem
        · exact absurd hmem (hr _)
        · obtain rfl : evt' = evt := by simpa using hmem
          rw [firstMatch_append, hm]
          simp [firstMatch, hdec, htype]
      · refine .pending hw hr ?_
        rw [firstMatch_append, hm]
        simp [firstMatch, hdec, htype]
    | done hw hm =>
      rw [hw]
      refine .done hw fun evt' hmem => ?_
      rw [firstMatch_append, hm evt' hmem]
      rfl

theorem Waiting.step {c : EngineClient} {entries : List (Option EngineOutputEvent)}
    (h : Waiting corr types c entries) (hcorr : corr ≠ "") {a : Action}
    (ha : ∀ on, a ≠ .submitCommand corr on) :
    Waiting corr types (c.step a) (entries ++ heard corr [a]) := by
  cases a with
  | submitCommand other on =>
    have hne : corr ≠ other := fun heq => ha on (by rw [heq])
    rw [show heard corr [.submitCommand other on] = [] from rfl, List.append_nil]
    exact h.congr (OrdMap.get?_set_ne _ hne _) fun _ => Iff.rfl
  | timeout other =>
    rw [show heard corr [.timeout other] = [] from rfl, List.append_nil]
    exact h.giveUp other
  | enqueueFailed other =>
    rw [show heard corr [.enqueueFailed other] = [] from rfl, List.append_nil]
    exact h.giveUp other
  | message id data =>
    cases hdata : carries corr data with
    | true =>
      have hheard : heard corr [.message id data] = [data] := by simp [heard, hdata]
      rw [hheard]
      exact h.message_own hcorr id hdata
    | false =>
      have hheard : heard corr [.message id data] = [] := by simp [heard, hdata]
      rw [hheard, List.append_nil]
      exact h.message_other id hdata

theorem Waiting.run {c : EngineClient} {entries : List (Option EngineOutputEvent)}
    (h : Waiting corr types c entries) (hcorr : corr ≠ "") {acts : List Action}
    (hacts : ∀ a ∈ acts, ∀ on, a ≠ .submitCommand corr on) :
    Waiting corr types (c.runActions acts) (entries ++ heard corr acts) := by
  induction acts generalizing c entries with
  | nil =>
    rw [show heard corr [] = [] from rfl, List.append_nil]
    exact h
  | cons a acts ih =>
    have hstep := h.step hcorr (hacts a List.mem_cons_self)
    have hrest := ih hstep fun b hb => hacts b (List.mem_cons_of_mem _ hb)
    rwa [List.append_assoc, ← heard_append] at hrest

end Waiting

/-- Nothing at the client bears the correlation id, and it is submitted once. -/
structure Fresh (correlationId : String) (c : EngineClient) (acts : List Action) : Prop where
  waiter : c.commandWaiters.get? correlationId = none
  replies : ∀ r, (correlationId, r) ∉ c.replies
  submits : ∀ a ∈ acts, ∀ on, a ≠ .submitCommand correlationId on

/-- Whatever else the client does, a submitted command is answered by the first
matching event of its own correlation id, or not at all. -/
theorem reply_eq_firstMatch {corr : String} (hcorr : corr ≠ "") {c : EngineClient}
    {acts : List Action} (hfresh : Fresh corr c acts) (types : List EngineOutputEventType)
    {evt : EngineOutputEvent}
    (h : (corr, some evt) ∈ (c.runActions (.submitCommand corr types :: acts)).replies) :
    firstMatch types (heard corr acts) = some evt := by
  have hstart : Waiting corr types (c.step (.submitCommand corr types)) [] :=
    .pending (OrdMap.get?_set_self _ _ _) hfresh.replies rfl
  have hrun := hstart.run hcorr hfresh.submits
  cases hrun with
  | pending hw hr hm => exact absurd h (hr _)
  | done hw hm => exact hm evt h

/-! The answer arrives when nothing else happens -/

theorem firstMatch_outputs (types : List EngineOutputEventType) {outs : List EngineOutputEvent}
    (hdec : ∀ out ∈ outs, decodeOutputEvent (some out) = some out) :
    firstMatch types (outs.map some) = outs.find? fun out => out.payload.eventType ∈ types := by
  have hread : (outs.map some).filterMap decodeOutputEvent = outs := by
    have hsome : outs.filterMap (decodeOutputEvent ∘ some) = outs.filterMap some :=
      List.filterMap_congr fun out hout => hdec out hout
    rw [List.filterMap_map, hsome]
    exact List.filterMap_some
  rw [firstMatch, hread]

theorem heard_outputs {corr : String} (id : StreamId) {outs : List EngineOutputEvent}
    (hown : ∀ out ∈ outs, out.correlationId = some corr) :
    heard corr (outs.map fun out => .message id (some out)) = outs.map some := by
  induction outs with
  | nil => rfl
  | cons out outs ih =>
    have ih := ih fun x hx => hown x (List.mem_cons_of_mem _ hx)
    have hcarries : carries corr (some out) = true := by
      simp [carries, hown out List.mem_cons_self]
    rw [List.map_cons, List.map_cons, ← ih]
    simp [heard, hcarries]

theorem replies_step (c : EngineClient) (a : Action) : ∀ r ∈ c.replies, r ∈ (c.step a).replies := by
  have hresolve (c : EngineClient) (corr : String) (reply : Option EngineOutputEvent) :
      ∀ r ∈ c.replies, r ∈ (c.resolve corr reply).replies := fun r hr => List.mem_append_left _ hr
  have hgiveUp (corr : String) : ∀ r ∈ c.replies, r ∈ (c.giveUp corr).replies := by
    unfold giveUp
    split_ifs
    · exact hresolve c corr none
    · exact fun r hr => hr
  cases a with
  | submitCommand corr on => exact fun r hr => hr
  | timeout corr => exact hgiveUp corr
  | enqueueFailed corr => exact hgiveUp corr
  | message id data =>
    intro r hr
    show r ∈ (c.tailMessage id data).replies
    unfold tailMessage
    dsimp only
    split
    · exact hr
    split
    · exact hr
    split_ifs
    · exact hr
    split
    · exact hr
    split_ifs
    · exact hresolve { c with lastId := some id } _ _ r hr
    · exact hr

theorem replies_run (c : EngineClient) (acts : List Action) :
    ∀ r ∈ c.replies, r ∈ (c.runActions acts).replies := by
  induction acts generalizing c with
  | nil => exact fun r hr => hr
  | cons a acts ih => exact fun r hr => ih _ r (replies_step c a r hr)

/-- A waiter that reads the outputs of its command is resolved by the first match. -/
theorem reply_of_outputs {corr : String} (hcorr : corr ≠ "") {types : List EngineOutputEventType}
    (id : StreamId) {outs : List EngineOutputEvent} {c : EngineClient}
    (hw : c.commandWaiters.get? corr = some ⟨types⟩)
    (hdec : ∀ out ∈ outs, decodeOutputEvent (some out) = some out)
    (hown : ∀ out ∈ outs, out.correlationId = some corr) {evt : EngineOutputEvent}
    (h : outs.find? (fun out => out.payload.eventType ∈ types) = some evt) :
    (corr, some evt) ∈ (c.runActions (outs.map fun out => .message id (some out))).replies := by
  induction outs generalizing c with
  | nil => cases h
  | cons out outs ih =>
    have hread : c.step (.message id (some out)) =
        if out.payload.eventType ∈ types then
          resolve { c with lastId := some id } corr (some out)
        else { c with lastId := some id } := by
      simp only [step, tailMessage, hdec out List.mem_cons_self, hown out List.mem_cons_self,
        if_neg hcorr, hw]
    rw [List.map_cons]
    show _ ∈ ((c.step (.message id (some out))).runActions _).replies
    rw [hread]
    by_cases htype : out.payload.eventType ∈ types
    · rw [List.find?_cons_of_pos (by simpa using htype)] at h
      obtain rfl := Option.some.inj h
      rw [if_pos htype]
      exact replies_run _ _ _ (by simp [resolve])
    · rw [List.find?_cons_of_neg (by simpa using htype)] at h
      rw [if_neg htype]
      exact ih hw (fun x hx => hdec x (List.mem_cons_of_mem _ hx))
        (fun x hx => hown x (List.mem_cons_of_mem _ hx)) h

end EngineClient

end Perps

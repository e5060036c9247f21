import Perps.Observer.Index
import Perps.Proofs.LiquidationSweep
import Perps.Proofs.UnrealizedPnl

/-! The sequence numbers of the observer, over ticks and restarts. They increase as long as
the observer runs, and over a restart if the first tick that is let through comes later than
all that was emitted before; then the engine accepts every price. -/

namespace Perps

open Lib

namespace Observer

variable {cfg : Config}

/-- A tick that is let through as the first one since a restart comes later than every event
emitted before. -/
def RestartsAhead (cfg : Config) (h : History) : Action → Prop
  | .tick now _ tick => ¬ throttled cfg h.memory now = true → h.memory.lastSeq = 0 →
      ∀ x ∈ observerSeqs h.emitted, x < tick.eventTime
  | .restart => True

instance (cfg : Config) (h : History) (a : Action) : Decidable (RestartsAhead cfg h a) := by
  cases a
  · exact inferInstanceAs (Decidable (_ → _ → ∀ x ∈ _, _))
  · exact .isTrue trivial

/-- One step, for `Along`. -/
def advance (cfg : Config) (h : History) (a : Action) : Option History := some (step cfg h a)

theorem along_cons (h : History) (a : Action) (as : List Action) :
    Along (advance cfg) (RestartsAhead cfg) h (a :: as) ↔
      RestartsAhead cfg h a ∧ Along (advance cfg) (RestartsAhead cfg) (step cfg h a) as := by
  simp only [Along, advance, Option.mem_some_iff, forall_eq']

/-- A tick is throttled, or is emitted with its sequence number. -/
theorem step_tick (cfg : Config) (h : History) (now : ℕ) (eventId : String) (tick : MarkPriceTick) :
    throttled cfg h.memory now = true ∧ step cfg h (.tick now eventId tick) = h ∨
      ¬ throttled cfg h.memory now = true ∧ ∃ e : EngineInputEvent, e.commandId = none ∧
        e.payload = .indexPriceUpdated
          ⟨cfg.symbol, tick.indexPrice, observerSeq h.memory tick, tick.eventTime⟩ ∧
        step cfg h (.tick now eventId tick) =
          ⟨⟨now, observerSeq h.memory tick⟩, h.emitted ++ [e]⟩ := by
  unfold step onTick
  dsimp only
  by_cases ht : throttled cfg h.memory now = true
  · rw [if_pos ht]
    exact Or.inl ⟨ht, by simp⟩
  · rw [if_neg ht]
    exact Or.inr ⟨ht, _, rfl, rfl, rfl⟩

theorem observerSeqs_append (xs ys : List EngineInputEvent) :
    observerSeqs (xs ++ ys) = observerSeqs xs ++ observerSeqs ys := List.filterMap_append

theorem observerSeqs_price {e : EngineInputEvent} {p : IndexPriceUpdated}
    (hp : e.payload = .indexPriceUpdated p) : observerSeqs [e] = [p.observerSeq] := by
  simp [observerSeqs, hp]

/-- While the observer runs, the numbers increase. -/
theorem lastSeq_lt_observerSeq (m : Memory) (tick : MarkPriceTick) :
    m.lastSeq < observerSeq m tick := by
  unfold observerSeq
  split_ifs with h
  · exact h
  · exact Nat.lt_succ_self _

/-- A fresh observer takes the event time, or 1 for an event time of 0. -/
theorem observerSeq_fresh {m : Memory} (hm : m.lastSeq = 0) (tick : MarkPriceTick) :
    observerSeq m tick = max 1 tick.eventTime := by
  unfold observerSeq
  split_ifs <;> omega

/-- What holds of every history. -/
structure Sound (h : History) : Prop where
  positive : ∀ x ∈ observerSeqs h.emitted, 0 < x
  plain : ∀ e ∈ h.emitted, e.commandId = none

theorem Sound.step {h : History} (hs : Sound h) (a : Action) : Sound (step cfg h a) := by
  cases a with
  | restart => exact ⟨hs.positive, hs.plain⟩
  | tick now eventId tick =>
    rcases step_tick cfg h now eventId tick with ⟨-, heq⟩ | ⟨-, e, hcommand, hp, heq⟩
    · rwa [heq]
    · rw [heq]
      refine ⟨fun x hx => ?_, fun x hx => ?_⟩
      · rw [observerSeqs_append, observerSeqs_price hp, List.mem_append, List.mem_singleton] at hx
        rcases hx with hx | rfl
        · exact hs.positive x hx
        · exact Nat.zero_lt_of_lt (lastSeq_lt_observerSeq h.memory tick)
      · rcases List.mem_append.mp hx with hx | hx
        · exact hs.plain x hx
        · rwa [List.mem_singleton.mp hx]

/-- The numbers increase, and the memory is fresh or knows the last of them. -/
structure Increasing (h : History) : Prop where
  seqs : (observerSeqs h.emitted).Pairwise (· < ·)
  known : h.memory.lastSeq = 0 ∨ ∀ x ∈ observerSeqs h.emitted, x ≤ h.memory.lastSeq

theorem Increasing.step {h : History} (hi : Increasing h) {a : Action}
    (ha : RestartsAhead cfg h a) : Increasing (step cfg h a) := by
  cases a with
  | restart => exact ⟨hi.seqs, Or.inl rfl⟩
  | tick now eventId tick =>
    rcases step_tick cfg h now eventId tick with ⟨-, heq⟩ | ⟨ht, e, -, hp, heq⟩
    · rwa [heq]
    · have hbehind : ∀ x ∈ observerSeqs h.emitted, x < observerSeq h.memory tick := by
        intro x hx
        by_cases hfresh : h.memory.lastSeq = 0
        · rw [observerSeq_fresh hfresh]
          exact lt_of_lt_of_le (ha ht hfresh x hx) (le_max_right _ _)
        · exact lt_of_le_of_lt (hi.known.resolve_left hfresh x hx) (lastSeq_lt_observerSeq _ _)
      rw [heq]
      refine ⟨?_, Or.inr fun x hx => ?_⟩
      · rw [observerSeqs_append, observerSeqs_price hp, List.pairwise_append]
        refine ⟨hi.seqs, List.pairwise_singleton _ _, fun x hx y hy => ?_⟩
        rw [List.mem_singleton.mp hy]
        exact hbehind x hx
      · rw [observerSeqs_append, observerSeqs_price hp, List.mem_append, List.mem_singleton] at hx
        rcases hx with hx | rfl
        · exact (hbehind x hx).le
        · exact le_rfl

theorem observe_cons (cfg : Config) (h : History) (a : Action) (as : List Action) :
    observe cfg h (a :: as) = observe cfg (step cfg h a) as := rfl

theorem observe_sound {h : History} (hs : Sound h) (as : List Action) : Sound (observe cfg h as) := by
  induction as generalizing h with
  | nil => exact hs
  | cons a as ih => exact ih (hs.step a)

theorem observe_increasing {h : History} (hi : Increasing h) {as : List Action}
    (has : Along (advance cfg) (RestartsAhead cfg) h as) : Increasing (observe cfg h as) := by
  induction as generalizing h with
  | nil => exact hi
  | cons a as ih =>
    rw [along_cons] at has
    exact ih (hi.step has.1) has.2

theorem emitted_step (h : History) (a : Action) : h.emitted <+: (step cfg h a).emitted := by
  cases a with
  | restart => exact List.prefix_refl _
  | tick => exact List.prefix_append _ _

theorem emitted_observe (h : History) (as : List Action) :
    h.emitted <+: (observe cfg h as).emitted := by
  induction as generalizing h with
  | nil => exact List.prefix_refl _
  | cons a as ih => exact (emitted_step h a).trans (ih (step cfg h a))

/-- A step after which the numbers still increase was ahead of the restart before it. -/
theorem restartsAhead_of_increasing {h : History} (hs : Sound h) {a : Action}
    (hi : (observerSeqs (step cfg h a).emitted).Pairwise (· < ·)) : RestartsAhead cfg h a := by
  cases a with
  | restart => trivial
  | tick now eventId tick =>
    intro ht hfresh x hx
    rcases step_tick cfg h now eventId tick with ⟨hthrottled, -⟩ | ⟨-, e, -, hp, heq⟩
    · exact absurd hthrottled ht
    · rw [heq, observerSeqs_append, observerSeqs_price hp, List.pairwise_append] at hi
      have hlt : x < observerSeq h.memory tick := hi.2.2 x hx _ (List.mem_singleton_self _)
      rw [observerSeq_fresh hfresh] at hlt
      have hpos := hs.positive x hx
      omega

theorem along_of_increasing {h : History} (hs : Sound h) {as : List Action}
    (hi : (observerSeqs (observe cfg h as).emitted).Pairwise (· < ·)) :
    Along (advance cfg) (RestartsAhead cfg) h as := by
  induction as generalizing h with
  | nil => trivial
  | cons a as ih =>
    rw [observe_cons] at hi
    refine (along_cons h a as).mpr ⟨restartsAhead_of_increasing hs ?_, ih (hs.step a) hi⟩
    exact hi.sublist ((emitted_observe (step cfg h a) as).sublist.filterMap _)

theorem sound_start : Sound History.start := ⟨by simp [History.start, observerSeqs], by simp [History.start]⟩

theorem increasing_start : Increasing History.start :=
  ⟨by simp [History.start, observerSeqs], Or.inl rfl⟩

end Observer

/-! What the engine makes of them -/

namespace Engine

theorem lastObserverSeq_of_other {s : EngineState} {e : EngineInputEvent} (hp : isPrice e = false)
    (id : StreamId) : (process s e id).1.lastObserverSeq = s.lastObserverSeq := by
  have hquotes {t u : EngineState} (h : quotes t = quotes u) :
      t.lastObserverSeq = u.lastObserverSeq := congrArg (fun q => q.2.1) h
  by_cases ha : alreadyApplied s e = true
  · rw [process_applied ha]
  · rw [(process_new ha id).lastObserverSeq]
    rcases dispatch_effect_or_credit s e with heff | ⟨u, amount, hsame⟩
    · generalize (dispatch s e).1 = t at heff
      cases heff with
      | unchanged => rfl
      | opened hsame => rw [hsame.core]
      | credited u amount _ _ hsame => rw [hsame.core, credit_eq]
      | placed o _ _ _ hsame =>
        rw [hsame.core]
        exact congrArg (fun q => q.2.1) (quotes_placed s e.toEnvelopeMeta o)
      | cancelled c level removed _ _ _ _ hsame =>
        rw [hsame.core]
        exact hquotes ((quotes_release _ _ removed.margin).trans (quotes_setLevels _ _ _))
      | marked p hprice =>
        unfold isPrice at hp
        rw [hprice] at hp
        cases hp
    · rw [hsame.core, credit_eq]

theorem lastObserverSeq_of_price {s : EngineState} {e : EngineInputEvent} {p : IndexPriceUpdated}
    (hp : e.payload = .indexPriceUpdated p) (hfresh : ¬ alreadyApplied s e = true)
    (hseq : s.lastObserverSeq < p.observerSeq) (id : StreamId) :
    (process s e id).1.lastObserverSeq = p.observerSeq := by
  rw [(process_new hfresh id).lastObserverSeq, dispatch_swept hp hseq, (foldl_drafted_same _ _).core,
    markedState, liquidationSweep_core]
  rfl

/-- Every index price of the input is accepted. -/
def TakesPrices (s : EngineState) (evs : List (EngineInputEvent × StreamId)) : Prop :=
  Along advance (fun s x => isPrice x.1 = true → NewPrice s x.1) s evs

instance (s : EngineState) (evs : List (EngineInputEvent × StreamId)) : Decidable (TakesPrices s evs) :=
  inferInstanceAs (Decidable (Along _ _ _ _))

/-- Prices with increasing numbers are accepted, whatever comes between them. -/
theorem takesPrices_of_increasing {s : EngineState} {evs : List (EngineInputEvent × StreamId)}
    {events : List EngineInputEvent} (hevs : (evs.map Prod.fst).filter isPrice = events)
    (hplain : ∀ e ∈ events, e.commandId = none)
    (hinc : (Observer.observerSeqs events).Pairwise (· < ·))
    (hahead : ∀ x ∈ Observer.observerSeqs events, s.lastObserverSeq < x) : TakesPrices s evs := by
  induction evs generalizing s events with
  | nil => trivial
  | cons x xs ih =>
    refine (along_cons _ s x xs).mpr ?_
    rw [List.map_cons] at hevs
    cases hx : isPrice x.1 with
    | false =>
      rw [List.filter_cons_of_neg (by simp [hx])] at hevs
      refine ⟨nofun, ih hevs hplain hinc fun y hy => ?_⟩
      rw [lastObserverSeq_of_other hx]
      exact hahead y hy
    | true =>
      rw [List.filter_cons_of_pos hx] at hevs
      obtain ⟨p, hp⟩ : ∃ p, x.1.payload = .indexPriceUpdated p := by
        unfold isPrice at hx
        split at hx
        · exact ⟨_, ‹_›⟩
        · cases hx
      subst hevs
      have hseqs (es : List EngineInputEvent) :
          Observer.observerSeqs (x.1 :: es) = p.observerSeq :: Observer.observerSeqs es :=
        (Observer.observerSeqs_append [x.1] es).trans (by rw [Observer.observerSeqs_price hp]; rfl)
      rw [hseqs, List.pairwise_cons] at hinc
      rw [hseqs] at hahead
      have hseq := hahead p.observerSeq List.mem_cons_self
      have hfresh : ¬ alreadyApplied s x.1 = true := by
        unfold alreadyApplied
        rw [hplain x.1 List.mem_cons_self]
        simp
      refine ⟨fun _ => newPrice_of_marked hfresh hp hseq, ih rfl
        (fun e he => hplain e (List.mem_cons_of_mem _ he)) hinc.2 fun y hy => ?_⟩
      rw [lastObserverSeq_of_price hp hfresh hseq]
      exact_mod_cast hinc.1 y hy

end Engine

namespace Observer

/-- An engine that gets the events, among inputs that are no index prices, drops none of them. -/
def NoneDropped (events : List EngineInputEvent) : Prop :=
  ∀ (market : MarketConfig) (evs : List (EngineInputEvent × StreamId)),
    (evs.map Prod.fst).filter Engine.isPrice = events → Engine.TakesPrices (createState market) evs

/-- Over any ticks and restarts, the sequence numbers increase and the engine accepts every price
exactly if the first tick that is let through after a restart always comes later than all that
was emitted before. -/
theorem observer_monotonic_iff (cfg : Config) (as : List Action) :
    ((observerSeqs (observe cfg .start as).emitted).Pairwise (· < ·) ∧
        NoneDropped (observe cfg .start as).emitted) ↔
      Along (advance cfg) (RestartsAhead cfg) .start as := by
  constructor
  · intro h
    exact along_of_increasing sound_start h.1
  · intro h
    have hinc := (observe_increasing increasing_start h).seqs
    refine ⟨hinc, fun market evs hevs => ?_⟩
    refine Engine.takesPrices_of_increasing hevs (observe_sound sound_start as).plain hinc
      fun x _ => ?_
    exact lt_of_lt_of_le (by decide : (-1 : ℤ) < 0) (Int.natCast_nonneg x)

open Fixture in
/-- A tie is nudged forward, the observer restarts, and the next event time is the nudged one. -/
theorem observer_repeats :
    let cfg : Config := ⟨"BTCUSDT", 1000⟩
    let as : List Action := [.tick 1000 "idx_1" ⟨100, "BTCUSDT", 60000⟩,
      .tick 2000 "idx_2" ⟨100, "BTCUSDT", 60010⟩, .restart, .tick 3000 "idx_3" ⟨101, "BTCUSDT", 60020⟩]
    (eventTimes as).Pairwise (· ≤ ·) ∧
      observerSeqs (observe cfg .start as).emitted = [100, 101, 101] ∧
      ¬ (observerSeqs (observe cfg .start as).emitted).Pairwise (· < ·) ∧
      ¬ NoneDropped (observe cfg .start as).emitted := by
  intro cfg as
  refine ⟨by decide, by decide, by decide, fun h => ?_⟩
  have htakes := h MARKET (numbered (observe cfg .start as).emitted) (by decide +kernel)
  exact absurd htakes (by decide +kernel)

end Observer

end Perps

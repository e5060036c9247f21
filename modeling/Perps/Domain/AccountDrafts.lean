import Perps.Domain.Sweep

/-! The account events of a list of users in closed form: the drafts say what the
state stores, and drafting a user leaves the user with both records. -/

namespace Perps

open Lib Engine

def balancePayload (u : String) (b : Balance) : BalanceUpdated where
  userId := u
  total := b.total
  free := b.free
  locked := b.locked

def positionPayload (u : String) (p : Position) : PositionUpdated where
  userId := u
  size := p.size
  entryPrice := p.entryPrice
  margin := p.margin
  leverage := p.leverage
  liqPrice := p.liqPrice
  realizedPnl := p.realizedPnl
  unrealizedPnl := p.unrealizedPnl
  markPrice := p.markPrice

namespace Engine

/-! The drafts of a list of users -/

/-- The state after the two events of a user have been drafted. -/
def drafted (s : EngineState) (u : String) : EngineState := (positionDraft (balanceDraft s u).1 u).1

/-- The two events of a user. -/
def accountEvents (s : EngineState) (u : String) : List DraftOutput :=
  [.balanceUpdated (balancePayload u (s.bal u)), .positionUpdated (positionPayload u (s.pos u))]

theorem balanceDraft_snd (s : EngineState) (u : String) :
    (balanceDraft s u).2 = .balanceUpdated (balancePayload u (s.bal u)) := by
  rw [← ensureBalance_snd]
  rfl

theorem positionDraft_snd (s : EngineState) (u : String) :
    (positionDraft s u).2 = .positionUpdated (positionPayload u (s.pos u)) := by
  unfold positionDraft getPosition ensurePosition EngineState.pos
  cases s.positions.get? u <;> rfl

/-- The balance is there since the release. -/
theorem balanceDraft_released (s : EngineState) (u : String) (a : ℚ) :
    balanceDraft (release s u a).1 u =
      ((release s u a).1, .balanceUpdated (balancePayload u ((release s u a).1.bal u))) := by
  refine Prod.ext (ensureBalance_of_has ?_) (balanceDraft_snd _ u)
  rw [release_eq]
  simp [OrdMap.has]

theorem drafted_same (s : EngineState) (u : String) : SameAccounts s (drafted s u) :=
  (balanceDraft_same s u).trans (positionDraft_same _ u)

theorem drafted_records (s : EngineState) (u v : String) :
    records (drafted s u) v = if v = u then (some (s.bal u), some (s.pos u)) else records s v := by
  unfold drafted positionDraft balanceDraft getPosition ensurePosition ensureBalance records
    EngineState.bal EngineState.pos
  by_cases hv : v = u
  · subst hv
    cases hb : s.balances.get? v <;> cases hp : s.positions.get? v <;> simp [hb, hp]
  · cases s.balances.get? u <;> cases s.positions.get? u <;> simp [hv, OrdMap.get?_set]

theorem foldl_drafted_same (s : EngineState) (users : List String) :
    SameAccounts s (users.foldl drafted s) := by
  induction users generalizing s with
  | nil => exact .refl s
  | cons u us ih => exact (drafted_same s u).trans (ih (drafted s u))

/-- Every drafted user has both records afterwards. -/
theorem foldl_drafted_records (s : EngineState) (users : List String) (v : String) :
    records (users.foldl drafted s) v =
      if v ∈ users then (some (s.bal v), some (s.pos v)) else records s v := by
  induction users generalizing s with
  | nil => rfl
  | cons u us ih =>
    rw [List.foldl_cons, ih, (drafted_same s u).bal, (drafted_same s u).pos, drafted_records]
    by_cases hu : v = u
    · subst hu
      simp
    · simp [hu]

theorem accountEvents_congr {s t : EngineState} (h : SameAccounts s t) :
    accountEvents t = accountEvents s := by
  funext u
  rw [accountEvents, h.bal, h.pos]
  rfl

theorem accountDrafts_eq (users : List String) (acc : EngineState × List DraftOutput) :
    users.foldl accountDrafts acc =
      (users.foldl drafted acc.1, acc.2 ++ users.flatMap (accountEvents acc.1)) := by
  induction users generalizing acc with
  | nil => simp
  | cons u us ih =>
    have hone : accountDrafts acc u = (drafted acc.1 u, acc.2 ++ accountEvents acc.1 u) := by
      simp only [accountDrafts, balanceDraft_snd, positionDraft_snd, drafted, accountEvents,
        (balanceDraft_same acc.1 u).pos]
    rw [List.foldl_cons, ih, hone, accountEvents_congr (drafted_same acc.1 u), List.foldl_cons,
      List.flatMap_cons, List.append_assoc]

theorem liquidationDrafts_eq (liqs : List PositionLiquidated)
    (acc : EngineState × List DraftOutput) :
    liqs.foldl liquidationDrafts acc =
      ((liqs.map PositionLiquidated.userId).foldl drafted acc.1,
        acc.2 ++ liqs.flatMap fun l => .positionLiquidated l :: accountEvents acc.1 l.userId) := by
  induction liqs generalizing acc with
  | nil => simp
  | cons l ls ih =>
    have hone : liquidationDrafts acc l = (drafted acc.1 l.userId,
        acc.2 ++ .positionLiquidated l :: accountEvents acc.1 l.userId) := by
      simp only [liquidationDrafts, balanceDraft_snd, positionDraft_snd, drafted, accountEvents,
        (balanceDraft_same acc.1 l.userId).pos]
    rw [List.foldl_cons, ih, hone, accountEvents_congr (drafted_same acc.1 l.userId), List.map_cons,
      List.foldl_cons, List.flatMap_cons, List.append_assoc]

end Engine

end Perps

import Mathlib

/-! Input events: the envelope every stream entry is wrapped in, the five
payloads, and what the schema admits. Numbers are exact rationals. -/

namespace Perps

inductive Side where
  | Bid
  | Ask
  deriving DecidableEq, Repr

inductive OrderType where
  | LIMIT
  | MARKET
  deriving DecidableEq, Repr

def SCHEMA_VERSION : ℕ := 1

structure EnvelopeMeta where
  eventId : String
  ts : ℕ
  source : String
  schemaVersion : ℕ
  correlationId : Option String
  causationId : Option String
  commandId : Option String
  deriving DecidableEq, Repr

structure UserCreated where
  userId : String
  openingBalance : ℚ
  deriving DecidableEq, Repr

structure BalanceDeposited where
  userId : String
  amount : ℚ
  deriving DecidableEq, Repr

structure PlaceOrder where
  userId : String
  orderId : String
  side : Side
  orderType : OrderType
  quantity : ℚ
  price : ℚ
  leverage : ℚ
  margin : ℚ
  deriving DecidableEq, Repr

structure CancelOrder where
  userId : String
  orderId : String
  side : Side
  price : ℚ
  deriving DecidableEq, Repr

structure IndexPriceUpdated where
  symbol : String
  price : ℚ
  observerSeq : ℕ
  sourceTs : ℕ
  deriving DecidableEq, Repr

/-- The payload, tagged with the `eventType` it goes with. -/
inductive InputPayload where
  | userCreated (p : UserCreated)
  | balanceDeposited (p : BalanceDeposited)
  | orderPlace (p : PlaceOrder)
  | orderCancel (p : CancelOrder)
  | indexPriceUpdated (p : IndexPriceUpdated)
  deriving DecidableEq, Repr

structure EngineInputEvent extends EnvelopeMeta where
  payload : InputPayload
  deriving DecidableEq, Repr

/-- `z.string().min(1).optional()`. -/
def optionalId : Option String → Prop
  | none => True
  | some s => s ≠ ""

def EnvelopeMeta.Valid (m : EnvelopeMeta) : Prop :=
  m.eventId ≠ "" ∧ m.source ≠ "" ∧ 0 < m.schemaVersion ∧
    optionalId m.correlationId ∧ optionalId m.causationId ∧ optionalId m.commandId

def UserCreated.Valid (p : UserCreated) : Prop := p.userId ≠ "" ∧ 0 ≤ p.openingBalance

def BalanceDeposited.Valid (p : BalanceDeposited) : Prop := p.userId ≠ "" ∧ 0 < p.amount

def PlaceOrder.Valid (p : PlaceOrder) : Prop :=
  p.userId ≠ "" ∧ p.orderId ≠ "" ∧ 0 < p.quantity ∧ 0 ≤ p.price ∧ 0 < p.leverage ∧ 0 < p.margin

def CancelOrder.Valid (p : CancelOrder) : Prop := p.userId ≠ "" ∧ p.orderId ≠ "" ∧ 0 ≤ p.price

def IndexPriceUpdated.Valid (p : IndexPriceUpdated) : Prop := p.symbol ≠ "" ∧ 0 < p.price

def InputPayload.Valid : InputPayload → Prop
  | .userCreated p => p.Valid
  | .balanceDeposited p => p.Valid
  | .orderPlace p => p.Valid
  | .orderCancel p => p.Valid
  | .indexPriceUpdated p => p.Valid

/-- What `engineInputEventSchema` admits. -/
def engineInputEventSchema (e : EngineInputEvent) : Prop :=
  e.toEnvelopeMeta.Valid ∧ e.payload.Valid

instance : DecidablePred optionalId := fun
  | none => isTrue trivial
  | some s => inferInstanceAs (Decidable (s ≠ ""))

instance : DecidablePred EnvelopeMeta.Valid := fun m =>
  inferInstanceAs (Decidable (m.eventId ≠ "" ∧ m.source ≠ "" ∧ 0 < m.schemaVersion ∧
    optionalId m.correlationId ∧ optionalId m.causationId ∧ optionalId m.commandId))

instance : DecidablePred UserCreated.Valid := fun p =>
  inferInstanceAs (Decidable (p.userId ≠ "" ∧ 0 ≤ p.openingBalance))

instance : DecidablePred BalanceDeposited.Valid := fun p =>
  inferInstanceAs (Decidable (p.userId ≠ "" ∧ 0 < p.amount))

instance : DecidablePred PlaceOrder.Valid := fun p =>
  inferInstanceAs (Decidable (p.userId ≠ "" ∧ p.orderId ≠ "" ∧ 0 < p.quantity ∧ 0 ≤ p.price ∧
    0 < p.leverage ∧ 0 < p.margin))

instance : DecidablePred CancelOrder.Valid := fun p =>
  inferInstanceAs (Decidable (p.userId ≠ "" ∧ p.orderId ≠ "" ∧ 0 ≤ p.price))

instance : DecidablePred IndexPriceUpdated.Valid := fun p =>
  inferInstanceAs (Decidable (p.symbol ≠ "" ∧ 0 < p.price))

instance : DecidablePred InputPayload.Valid := fun
  | .userCreated p => inferInstanceAs (Decidable p.Valid)
  | .balanceDeposited p => inferInstanceAs (Decidable p.Valid)
  | .orderPlace p => inferInstanceAs (Decidable p.Valid)
  | .orderCancel p => inferInstanceAs (Decidable p.Valid)
  | .indexPriceUpdated p => inferInstanceAs (Decidable p.Valid)

instance : DecidablePred engineInputEventSchema := fun e =>
  inferInstanceAs (Decidable (e.toEnvelopeMeta.Valid ∧ e.payload.Valid))

end Perps

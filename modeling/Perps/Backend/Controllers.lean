import Perps.Backend.Client
import Perps.DbWriter.Projector
import Perps.Events.Wire

/-! The api's controllers that write. A request goes through them in steps that end where
the handler awaits the database or the engine, so that other requests come in between. -/

namespace Perps

open Lib

namespace Backend

/-- The columns of an order that the api alone writes. -/
structure PlacedOrder where
  walletId : String
  commandId : String
  orderType : OrderType
  side : Side
  quantity : DbWriter.IntColumn
  price : DbWriter.IntColumn
  leverage : DbWriter.IntColumn
  liquidationPrice : DbWriter.IntColumn
  lockedBalance : DbWriter.IntColumn
  deriving DecidableEq, Repr

/-- The users' ids by name, the api's own columns of the orders, and the tables that the
projection writes too. -/
structure Database where
  users : OrdMap String String
  placed : OrdMap String PlacedOrder
  tables : DbWriter.Db

def Database.empty : Database := ⟨.empty, .empty, ⟨[], none, .empty, .empty, .empty, .empty⟩⟩

/-- What is drawn in a step: the keys of new rows, or a `randomUUID`. -/
structure Drawn where
  id : String
  otherId : String
  deriving DecidableEq, Repr

/-- `z.infer` of `orderParser`. -/
structure OrderBody where
  quantity : ℚ
  price : ℚ
  ordertype : OrderType
  side : Side
  leverage : ℚ
  margin : ℚ
  deriving DecidableEq, Repr

def orderParser (body : OrderBody) : Prop :=
  0 < body.quantity ∧ 0 ≤ body.price ∧ 0 < body.leverage ∧ 0 < body.margin

instance : DecidablePred orderParser := fun body =>
  inferInstanceAs (Decidable (0 < body.quantity ∧ 0 ≤ body.price ∧ 0 < body.leverage ∧
    0 < body.margin))

/-- `z.infer` of `cancelParser`. -/
structure CancelBody where
  orderId : String
  price : ℚ
  side : Side
  deriving DecidableEq, Repr

def cancelParser (body : CancelBody) : Prop := 0 ≤ body.price

instance : DecidablePred cancelParser := fun body => inferInstanceAs (Decidable (0 ≤ body.price))

/-! Responses -/

structure Response where
  status : ℕ
  body : List (String × Json)

/-- `globalErrorHandler` for a `ZodError`, an `ApiError` and any other error. -/
def invalidBody : Response := ⟨400, [("message", .str "invalid request body")]⟩

def apiError (status : ℕ) (message : String) (details : List (String × Json)) : Response :=
  ⟨status, ("message", .str message) :: details⟩

def internalError : Response := ⟨500, [("message", .str "internal server error")]⟩

/-- The command that is submitted, by what the response to it says. -/
inductive Submitted where
  | order (orderId : String)
  | cancel (orderId : String)
  deriving DecidableEq, Repr

def Submitted.orderId : Submitted → String
  | .order orderId => orderId
  | .cancel orderId => orderId

def Submitted.resolveOn : Submitted → List EngineOutputEventType
  | .order _ => [.orderAccepted, .orderRejected]
  | .cancel _ => [.orderCancelled, .orderRejected]

/-- The end of `OrderController` and of `deleteOrder`, with the result of `submitCommand`. -/
def Submitted.respond (submitted : Submitted) (result : Option EngineOutputEvent) : Response :=
  let orderId := ("orderId", Json.str submitted.orderId)
  match submitted, result.map EngineOutputEvent.payload with
  | .order _, none => ⟨202, [("message", .str "order accepted for processing"), orderId]⟩
  | .cancel _, none => ⟨202, [("message", .str "cancellation accepted for processing"), orderId]⟩
  | _, some (.orderRejected p) => apiError 400 p.reason [orderId]
  | .order _, some (.orderAccepted p) =>
    ⟨200, [("message", .str "order processed"), orderId, ("status", .str p.status.name),
      ("filledQuantity", .num p.filledQuantity), ("remainingQuantity", .num p.remainingQuantity),
      ("avgFillPrice", .num p.avgFillPrice)]⟩
  | .order _, some _ => ⟨200, [("message", .str "order processed"), orderId]⟩
  | .cancel _, some _ => ⟨200, [("message", .str "order cancelled"), orderId]⟩

/-! The database -/

/-- An `Int` column takes the integers of 32 bits and no other number. -/
def intColumn (x : ℚ) : Option DbWriter.IntColumn :=
  if h : x.den = 1 ∧ DbWriter.FitsInt x.num then some ⟨x.num, h.2⟩ else none

/-- The ids of the wallets. -/
def Database.walletIds (db : Database) : List String :=
  db.tables.wallets.entries.map fun x => x.2.id

/-- `user.create` with its wallet; the names and ids are unique. -/
def createUser (db : Database) (username : String) (drawn : Drawn) : Option Database :=
  if db.users.has username = true ∨ drawn.id ∈ db.users.entries.map Prod.snd ∨
      db.tables.wallets.has drawn.id = true ∨ drawn.otherId ∈ db.walletIds then none
  else some { db with
    users := db.users.set username drawn.id
    tables := { db.tables with
      wallets := db.tables.wallets.set drawn.id
        { id := drawn.otherId, balance := 0, freeBalance := 0, lockedBalance := 0 } } }

/-- `wallet.update` with its two increments, and the row it returns. -/
def incrementWallet (db : Database) (userId : String) (amount : ℚ) :
    Option (Database × DbWriter.WalletRow) := do
  let amount ← intColumn amount
  let row ← db.tables.wallets.get? userId
  let balance ← intColumn ((row.balance + amount : ℤ) : ℚ)
  let freeBalance ← intColumn ((row.freeBalance + amount : ℤ) : ℚ)
  let row := { row with balance := balance, freeBalance := freeBalance }
  some ({ db with tables := { db.tables with wallets := db.tables.wallets.set userId row } }, row)

/-- The columns that `order.create` is given. -/
def placedOrder (walletId commandId : String) (body : OrderBody) : Option PlacedOrder := do
  let quantity ← intColumn body.quantity
  let price ← intColumn body.price
  let leverage ← intColumn body.leverage
  let margin ← intColumn body.margin
  some
    { walletId := walletId
      commandId := commandId
      orderType := body.ordertype
      side := body.side
      quantity := quantity
      price := price
      leverage := leverage
      liquidationPrice := ⟨0, by decide⟩
      lockedBalance := margin }

/-- `order.create`: the id and the command id are unique, the wallet is there. -/
def createOrder (db : Database) (walletId : String) (body : OrderBody) (drawn : Drawn) :
    Option Database := do
  let row ← placedOrder walletId drawn.otherId body
  if db.placed.has drawn.id = true ∨ db.tables.orders.has drawn.id = true ∨
      drawn.otherId ∈ db.placed.entries.map (fun x => x.2.commandId) ∨
      walletId ∉ db.walletIds then none
  else some { db with
    placed := db.placed.set drawn.id row
    tables := { db.tables with
      orders := db.tables.orders.set drawn.id
        { status := .PENDING, filledQuantity := 0, avgFillPrice := 0 } } }

/-- `order.findUnique` with the user of its wallet, and its status. -/
def findOrder (db : Database) (orderId : String) : Option (String × DbWriter.Status) := do
  let order ← db.placed.get? orderId
  let row ← db.tables.orders.get? orderId
  let wallet ← db.tables.wallets.entries.find? fun x => x.2.id = order.walletId
  some (wallet.1, row.status)

/-! Requests -/

inductive Request where
  | signup (username password : String)
  | onramp (userId : String) (amount : ℚ)
  | order (userId : String) (body : OrderBody)
  | deleteOrder (userId : String) (body : CancelBody)
  deriving DecidableEq, Repr

/-- What a request awaits. -/
inductive Task where
  | findUser (username : String)
  | createUser (username : String)
  | updateWallet (userId : String) (amount : ℚ)
  | findWallet (userId : String) (body : OrderBody)
  | createOrder (userId walletId : String) (body : OrderBody)
  | findOrder (userId : String) (body : CancelBody)
  | fireCommand (cmd : CommandInput) (response : Response)
  | submitCommand (cmd : CommandInput) (submitted : Submitted)
  /-- The engine's reply to a command in the stream. -/
  | reply (submitted : Submitted)

/-- What comes of a step. -/
inductive Next where
  | await (task : Task)
  | respond (response : Response)

/-- The body is parsed before anything is awaited. -/
def Request.start : Request → Next
  | .signup username password =>
    if username ≠ "" ∧ password ≠ "" then .await (.findUser username) else .respond invalidBody
  | .onramp userId amount =>
    if 0 < amount then .await (.updateWallet userId amount) else .respond invalidBody
  | .order userId body =>
    if orderParser body then .await (.findWallet userId body) else .respond invalidBody
  | .deleteOrder userId body =>
    if cancelParser body then .await (.findOrder userId body) else .respond invalidBody

def statusName : DbWriter.Status → String
  | .PENDING => "PENDING"
  | .OPEN => "OPEN"
  | .PARTIALLYFILLED => "PARTIALLYFILLED"
  | .FILLED => "FILLED"
  | .CANCELLED => "CANCELLED"
  | .REJECTED => "REJECTED"
  | .CLOSE => "CLOSE"

/-- The commands of the controllers. -/
def userCreatedCommand (userId : String) : CommandInput where
  commandId := some s!"user-{userId}"
  payload := .userCreated { userId := userId, openingBalance := 0 }

def depositCommand (userId : String) (amount : ℚ) (drawn : Drawn) : CommandInput where
  commandId := some drawn.id
  payload := .balanceDeposited { userId := userId, amount := amount }

def placeCommand (userId : String) (body : OrderBody) (drawn : Drawn) : CommandInput where
  commandId := some drawn.otherId
  payload := .orderPlace
    { userId := userId
      orderId := drawn.id
      side := body.side
      orderType := body.ordertype
      quantity := body.quantity
      price := body.price
      leverage := body.leverage
      margin := body.margin }

def cancelCommand (userId : String) (body : CancelBody) (drawn : Drawn) : CommandInput where
  commandId := some drawn.id
  payload := .orderCancel
    { userId := userId, orderId := body.orderId, side := body.side, price := body.price }

def walletJson (userId : String) (row : DbWriter.WalletRow) : Json :=
  .obj [("id", .str row.id), ("userId", .str userId), ("balance", .num row.balance),
    ("freeBalance", .num row.freeBalance), ("lockedBalance", .num row.lockedBalance)]

/-- The database comes to the query that the task awaits; `none` if it awaits none. -/
def advance (db : Database) (drawn : Drawn) : Task → Option (Database × Next)
  | .findUser username =>
    if db.users.has username then some (db, .respond (apiError 409 "username already taken" []))
    else some (db, .await (.createUser username))
  | .createUser username =>
    match createUser db username drawn with
    | some db => some (db, .await (.fireCommand (userCreatedCommand drawn.id)
        ⟨201, [("message", .str "user has been successfully created")]⟩))
    | none => some (db, .respond internalError)
  | .updateWallet userId amount =>
    match incrementWallet db userId amount with
    | some (db, row) => some (db, .await (.fireCommand (depositCommand userId amount drawn)
        ⟨200, [("message", .str "balance updated"), ("wallet", walletJson userId row)]⟩))
    | none => some (db, .respond internalError)
  | .findWallet userId body =>
    match db.tables.wallets.get? userId with
    | some row => some (db, .await (.createOrder userId row.id body))
    | none => some (db, .respond (apiError 404 "wallet not found for this user" []))
  | .createOrder userId walletId body =>
    match createOrder db walletId body drawn with
    | some db =>
      some (db, .await (.submitCommand (placeCommand userId body drawn) (.order drawn.id)))
    | none => some (db, .respond internalError)
  | .findOrder userId body =>
    match findOrder db body.orderId with
    | some (owner, status) =>
      if owner ≠ userId then some (db, .respond (apiError 404 "order not found" []))
      else if status ∈ [.FILLED, .CANCELLED, .REJECTED, .CLOSE] then
        some (db, .respond (apiError 409 s!"order is {statusName status}" []))
      else
        some (db, .await (.submitCommand (cancelCommand userId body drawn) (.cancel body.orderId)))
    | none => some (db, .respond (apiError 404 "order not found" []))
  | .fireCommand _ _ | .submitCommand _ _ | .reply _ => none

end Backend

end Perps

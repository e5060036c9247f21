import Perps.Lib.Json

/-! Schemas that parse JSON values. A schema gives what it parsed, without the keys it
does not know, or refuses the value. -/

namespace Lib

structure Schema (α : Type) where
  /-- `safeParse(...).data`. -/
  parse : Json → Option α

namespace Schema

variable {α β : Type}

def MAX_SAFE_INTEGER : ℕ := 9007199254740991

def string : Schema String where
  parse
    | .str s => some s
    | _ => none

def number : Schema ℚ where
  parse
    | .num n => some n
    | _ => none

def refine (s : Schema α) (p : α → Prop) [DecidablePred p] : Schema α where
  parse j := (s.parse j).filter fun a => p a

def map (s : Schema α) (f : α → β) : Schema β where
  parse j := (s.parse j).map f

/-- `string().min(1)`. -/
def nonempty : Schema String := string.refine (· ≠ "")

/-- `number().int().nonnegative()`. -/
def natural : Schema ℕ :=
  (number.refine fun n => n.den = 1 ∧ 0 ≤ n.num ∧ n.num.toNat ≤ MAX_SAFE_INTEGER).map fun n => n.num.toNat

/-- An enumeration by the names of its members. -/
def enum (members : List α) (name : α → String) : Schema α where
  parse
    | .str s => members.find? fun a => name a = s
    | _ => none

def array (s : Schema α) : Schema (List α) where
  parse
    | .arr xs => xs.mapM s.parse
    | _ => none

def tuple (s : Schema α) (t : Schema β) : Schema (α × β) where
  parse
    | .arr [x, y] => do return (← s.parse x, ← t.parse y)
    | _ => none

/-- An object is read by its properties, whatever their order. -/
def object (read : (String → Option Json) → Option α) : Schema α where
  parse
    | .obj fields => read fun name => (Json.obj fields).field name
    | _ => none

def key (s : Schema α) (name : String) (get : String → Option Json) : Option α :=
  get name >>= s.parse

def optionalKey (s : Schema α) (name : String) (get : String → Option Json) : Option (Option α) :=
  match get name with
  | none => some none
  | some v => (s.parse v).map some

/-- The option that the discriminator names. -/
def discriminatedUnion (name : String) (options : List (String × ((String → Option Json) → Option α))) :
    Schema α :=
  object fun get => do
    let tag ← string.key name get
    let option ← options.find? fun o => o.1 = tag
    option.2 get

/-! What is printed and parsed again -/

theorem parse_string (s : String) : string.parse (.str s) = some s :=
  rfl

theorem parse_number (n : ℚ) : number.parse (.num n) = some n :=
  rfl

theorem parse_refine {s : Schema α} {p : α → Prop} [DecidablePred p] {j : Json} {a : α}
    (h : s.parse j = some a) (ha : p a) : (s.refine p).parse j = some a := by
  unfold refine
  dsimp only
  rw [h, Option.filter_some, if_pos (decide_eq_true ha)]

theorem parse_map {s : Schema α} {f : α → β} {j : Json} {a : α} (h : s.parse j = some a) :
    (s.map f).parse j = some (f a) := by
  unfold map
  dsimp only
  rw [h, Option.map_some]

theorem parse_nonempty {s : String} (h : s ≠ "") : nonempty.parse (.str s) = some s :=
  parse_refine (parse_string s) h

theorem parse_natural {n : ℕ} (h : n ≤ MAX_SAFE_INTEGER) : natural.parse (.num n) = some n := by
  unfold natural
  rw [parse_map (parse_refine (parse_number (n : ℚ)) (by simpa using h))]
  simp

theorem parse_enum {members : List α} {name : α → String} (hinj : Function.Injective name) {a : α}
    (ha : a ∈ members) : (enum members name).parse (.str (name a)) = some a := by
  unfold enum
  dsimp only
  cases hfind : members.find? fun b => name b = name a with
  | none => exact absurd (decide_eq_true rfl) (List.find?_eq_none.mp hfind a ha)
  | some b =>
    have hname : name b = name a := by simpa using List.find?_some hfind
    rw [hinj hname]

theorem parse_array {s : Schema α} {enc : α → Json} (xs : List α)
    (h : ∀ a ∈ xs, s.parse (enc a) = some a) : (array s).parse (.arr (xs.map enc)) = some xs := by
  unfold array
  dsimp only
  induction xs with
  | nil => rfl
  | cons x xs ih =>
    rw [List.map_cons, List.mapM_cons, h x List.mem_cons_self,
      ih fun a ha => h a (List.mem_cons_of_mem _ ha)]
    rfl

theorem parse_tuple {s : Schema α} {t : Schema β} {x y : Json} {a : α} {b : β}
    (hx : s.parse x = some a) (hy : t.parse y = some b) : (tuple s t).parse (.arr [x, y]) = some (a, b) := by
  unfold tuple
  dsimp only
  rw [hx, hy]
  rfl

theorem key_eq {s : Schema α} {name : String} {get : String → Option Json} {v : Json} {a : α}
    (hget : get name = some v) (h : s.parse v = some a) : s.key name get = some a := by
  unfold key
  rw [hget]
  exact h

theorem optionalKey_eq {s : Schema α} {name : String} {get : String → Option Json}
    {enc : α → Json} {a : Option α} (hget : get name = a.map enc)
    (h : ∀ b ∈ a, s.parse (enc b) = some b) : s.optionalKey name get = some a := by
  unfold optionalKey
  rw [hget]
  cases a with
  | none => rfl
  | some b =>
    rw [Option.map_some]
    dsimp only
    rw [h b rfl, Option.map_some]

/-! What a schema lets through -/

/-- All that the schema gives has the property. -/
def Gives (s : Schema α) (p : α → Prop) : Prop := ∀ j a, s.parse j = some a → p a

theorem gives_refine (s : Schema α) (p : α → Prop) [DecidablePred p] : (s.refine p).Gives p := by
  intro j a h
  obtain ⟨-, ha⟩ := Option.filter_eq_some_iff.mp h
  exact of_decide_eq_true ha

theorem Gives.refine {s : Schema α} {p : α → Prop} (h : s.Gives p) (p' : α → Prop)
    [DecidablePred p'] : (s.refine p').Gives p := by
  intro j a hj
  exact h j a (Option.filter_eq_some_iff.mp hj).1

theorem gives_natural : natural.Gives (· ≤ MAX_SAFE_INTEGER) := by
  intro j n h
  obtain ⟨x, hx, rfl⟩ := Option.map_eq_some_iff.mp h
  exact (gives_refine number _ j x hx).2.2

theorem Gives.map {s : Schema α} {p : α → Prop} (h : s.Gives p) (f : α → β) {p' : β → Prop}
    (hf : ∀ a, p a → p' (f a)) : (s.map f).Gives p' := by
  intro j b hb
  obtain ⟨a, ha, rfl⟩ := Option.map_eq_some_iff.mp hb
  exact hf a (h j a ha)

theorem Gives.key {s : Schema α} {p : α → Prop} (h : s.Gives p) {name : String}
    {get : String → Option Json} {a : α} (ha : s.key name get = some a) : p a := by
  obtain ⟨j, -, hj⟩ := Option.bind_eq_some_iff.mp ha
  exact h j a hj

theorem Gives.optionalKey {s : Schema α} {p : α → Prop} (h : s.Gives p) {name : String}
    {get : String → Option Json} {a : Option α} (ha : s.optionalKey name get = some a) :
    ∀ b ∈ a, p b := by
  unfold Schema.optionalKey at ha
  split at ha
  · obtain rfl := Option.some.inj ha
    exact fun b hb => nomatch hb
  · obtain ⟨b, hb, rfl⟩ := Option.map_eq_some_iff.mp ha
    intro b' hb'
    obtain rfl := Option.some.inj hb'
    exact h _ b hb

theorem gives_object {read : (String → Option Json) → Option α} {p : α → Prop}
    (h : ∀ get a, read get = some a → p a) : (object read).Gives p := by
  intro j a hj
  unfold object at hj
  dsimp only at hj
  split at hj
  · exact h _ a hj
  · cases hj

/-- What all options give, their union gives. -/
theorem gives_discriminatedUnion {name : String}
    {options : List (String × ((String → Option Json) → Option α))} {p : α → Prop}
    (h : ∀ o ∈ options, ∀ get a, o.2 get = some a → p a) :
    (discriminatedUnion name options).Gives p := by
  refine gives_object fun get a hread => ?_
  obtain ⟨tag, -, hrest⟩ := Option.bind_eq_some_iff.mp hread
  obtain ⟨o, ho, hget⟩ := Option.bind_eq_some_iff.mp hrest
  exact h o (List.mem_of_find?_eq_some ho) get a hget

end Schema

/-! JavaScript objects, whose properties may be undefined -/

abbrev JsObject : Type := List (String × Option Json)

namespace JsObject

def get (o : JsObject) (name : String) : Option Json :=
  (o.find? fun f => f.1 = name).bind Prod.snd

/-- The properties that `JSON.stringify` writes. -/
def defined (o : JsObject) : List (String × Json) := o.filterMap fun f => f.2.map fun v => (f.1, v)

def stringify (o : JsObject) : Json := .obj o.defined

theorem mem_defined {o : JsObject} {name : String} {v : Json} :
    (name, v) ∈ o.defined ↔ (name, some v) ∈ o := by
  unfold defined
  rw [List.mem_filterMap]
  constructor
  · rintro ⟨⟨name', v'⟩, hmem, h⟩
    obtain ⟨w, hw, heq⟩ := Option.map_eq_some_iff.mp h
    obtain ⟨rfl, rfl⟩ := Prod.mk.inj heq
    dsimp only at hw
    rwa [hw] at hmem
  · exact fun h => ⟨_, h, rfl⟩

theorem defined_sublist (o : JsObject) : (o.defined.map Prod.fst).Sublist (o.map Prod.fst) := by
  induction o with
  | nil => exact .slnil
  | cons f o ih =>
    obtain ⟨name, v⟩ := f
    cases v with
    | none => exact ih.cons name
    | some v => exact ih.cons_cons name

theorem find?_of_mem {β : Type} {fs : List (String × β)} (hnodup : (fs.map Prod.fst).Nodup)
    {name : String} {v : β} (h : (name, v) ∈ fs) : fs.find? (fun f => f.1 = name) = some (name, v) := by
  cases hfind : fs.find? fun f => f.1 = name with
  | none => exact absurd (decide_eq_true rfl) (List.find?_eq_none.mp hfind (name, v) h)
  | some f =>
    have hname : f.1 = name := by simpa using List.find?_some hfind
    have hmem := List.mem_of_find?_eq_some hfind
    rw [List.inj_on_of_nodup_map hnodup hmem h hname]

/-- What is written can be read, in whatever order it is written. -/
theorem field_of_perm {o : JsObject} (hnodup : (o.map Prod.fst).Nodup) {fs : List (String × Json)}
    (h : fs.Perm o.defined) (name : String) : (Json.obj fs).field name = o.get name := by
  have hfs : (fs.map Prod.fst).Nodup :=
    (h.map Prod.fst).nodup_iff.mpr (hnodup.sublist o.defined_sublist)
  have hmem (v : Json) : (name, v) ∈ fs ↔ (name, some v) ∈ o := h.mem_iff.trans mem_defined
  have hfield : (Json.obj fs).field name = (fs.find? fun f => f.1 = name).map Prod.snd := rfl
  rw [hfield]
  cases hget : o.get name with
  | some v =>
    obtain ⟨f, hf, hv⟩ := Option.bind_eq_some_iff.mp hget
    have hname : f.1 = name := by simpa using List.find?_some hf
    have hin : (name, some v) ∈ o := by
      rw [← hname, ← hv]
      exact List.mem_of_find?_eq_some hf
    rw [find?_of_mem hfs ((hmem v).mpr hin)]
    rfl
  | none =>
    rw [Option.map_eq_none_iff, List.find?_eq_none]
    rintro ⟨name', v⟩ hin heq
    obtain rfl : name' = name := by simpa using heq
    have hbind : o.get name' = some v := by
      unfold get
      rw [find?_of_mem hnodup ((hmem v).mp hin)]
      rfl
    rw [hbind] at hget
    cases hget

end JsObject

/-- An object schema sees the properties of the object. -/
theorem Schema.parse_object {α : Type} {read : (String → Option Json) → Option α} {o : JsObject}
    (hnodup : (o.map Prod.fst).Nodup) {fs : List (String × Json)} (h : fs.Perm o.defined) :
    (Schema.object read).parse (.obj fs) = read o.get :=
  congrArg read (funext (JsObject.field_of_perm hnodup h))

end Lib

import Mathlib

/-! Finite JSON values, and codecs that carry their own round trip. Text is left
out: printing a finite value and parsing it again gives the value back. -/

namespace Lib

inductive Json where
  | num (n : ℚ)
  | str (s : String)
  | arr (xs : List Json)
  | obj (fields : List (String × Json))

namespace Json

/-- The value of a property. -/
def field (name : String) : Json → Option Json
  | obj fields => (fields.find? fun f => f.1 = name).map Prod.snd
  | _ => none

end Json

/-- A way to write values of `α` as JSON that can be read back. -/
structure Codec (α : Type) where
  enc : α → Json
  dec : Json → Option α
  dec_enc : ∀ a, dec (enc a) = some a

namespace Codec

variable {α β : Type}

def num : Codec ℚ where
  enc := .num
  dec
    | .num n => some n
    | _ => none
  dec_enc _ := rfl

def int : Codec ℤ where
  enc n := .num n
  dec
    | .num n => if n.den = 1 then some n.num else none
    | _ => none
  dec_enc n := by simp

def nat : Codec ℕ where
  enc n := .num n
  dec
    | .num n => if n.den = 1 ∧ 0 ≤ n.num then some n.num.toNat else none
    | _ => none
  dec_enc n := by simp

def str : Codec String where
  enc := .str
  dec
    | .str s => some s
    | _ => none
  dec_enc _ := rfl

theorem mapM_dec_map_enc (c : Codec α) (xs : List α) : (xs.map c.enc).mapM c.dec = some xs := by
  induction xs with
  | nil => rfl
  | cons x xs ih =>
    simp only [List.map_cons, List.mapM_cons, c.dec_enc, ih]
    rfl

def list (c : Codec α) : Codec (List α) where
  enc xs := .arr (xs.map c.enc)
  dec
    | .arr xs => xs.mapM c.dec
    | _ => none
  dec_enc := c.mapM_dec_map_enc

/-- A pair is an array of two. -/
def pair (c : Codec α) (d : Codec β) : Codec (α × β) where
  enc p := .arr [c.enc p.1, d.enc p.2]
  dec
    | .arr [x, y] => do return (← c.dec x, ← d.dec y)
    | _ => none
  dec_enc p := by simp [c.dec_enc, d.dec_enc]

/-- Read a property of an object. -/
def readField (c : Codec α) (name : String) (j : Json) : Option α := j.field name >>= c.dec

end Codec

end Lib

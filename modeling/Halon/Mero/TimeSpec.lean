import Mathlib.Algebra.Order.Ring.Int

/-! Times as they are stored: arrays of seconds and nanoseconds. -/

namespace Halon.Mero

structure Scientific where
  coefficient : Int
  base10Exponent : Int
deriving DecidableEq, Repr

/-- A whole number is converted to 64 bits, with overflow. -/
def Scientific.floatingOrInteger (s : Scientific) : Option Int64 :=
  if 0 ≤ s.base10Exponent then some (Int64.ofInt (s.coefficient * 10 ^ s.base10Exponent.toNat))
  else if s.coefficient % 10 ^ (-s.base10Exponent).toNat = 0 then
    some (Int64.ofInt (s.coefficient / 10 ^ (-s.base10Exponent).toNat))
  else none

inductive Value where
  | Object (members : List (String × Value))
  | Array (elements : List Value)
  | String (text : String)
  | Number (s : Scientific)
  | Bool (b : Bool)
  | Null

/-- What a parser comes to. Reading behind the end of an array is an error of the program and no failure to parse. -/
inductive Parsed (α : Type) where
  | parsed (a : α)
  | typeMismatch (expected : String) (actual : Value)
  | outOfBounds

def Parsed.bind {α β : Type} : Parsed α → (α → Parsed β) → Parsed β
  | .parsed a, f => f a
  | .typeMismatch expected actual, _ => .typeMismatch expected actual
  | .outOfBounds, _ => .outOfBounds

structure TimeSpec where
  sec : Int64
  nsec : Int64
deriving DecidableEq, Repr

namespace TimeSpec

def toJSON (t : TimeSpec) : Value := .Array [.Number ⟨t.sec.toInt, 0⟩, .Number ⟨t.nsec.toInt, 0⟩]

def parseJSON.withIntegral (expected : String) : Value → Parsed Int64
  | .Number s =>
    match s.floatingOrInteger with
    | none => .typeMismatch expected (.Number s)
    | some i => .parsed i
  | v => .typeMismatch expected v

/-- The element at an index, for a parser that looks at it. -/
def parseJSON.index (a : List Value) (i : Nat) (parse : Value → Parsed Int64) : Parsed Int64 :=
  match a[i]? with
  | none => .outOfBounds
  | some v => parse v

def parseJSON : Value → Parsed TimeSpec
  | .Array a =>
    if a.length ≠ 2 then
      (parseJSON.index a 0 (parseJSON.withIntegral "secs")).bind fun secs =>
      (parseJSON.index a 1 (parseJSON.withIntegral "nsecs")).bind fun nsecs => .parsed ⟨secs, nsecs⟩
    else .typeMismatch "TimeSpec" (.Array a)
  | v => .typeMismatch "TimeSpec" v

end TimeSpec
end Halon.Mero

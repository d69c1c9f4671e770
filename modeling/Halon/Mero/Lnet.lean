import Mathlib.Data.Nat.Digits.Defs

/-! Endpoints of the network and their texts. A parser takes a part of the text and leaves the rest. -/

namespace Halon.Mero.Lnet

inductive TransportType where
  | O2IB
  | TCP
deriving DecidableEq, Repr

inductive LNid where
  | Loopback
  | IPNet (address : List Char) (tt : TransportType)
deriving DecidableEq, Repr

structure Endpoint where
  network_id : LNid
  process_id : Int64
  portal_number : Int64
  transfer_machine_id : Int64
deriving DecidableEq, Repr

abbrev Parser := StateT (List Char) Option

def string : List Char → Parser Unit
  | [], input => some ((), input)
  | c :: text, d :: input => if c = d then string text input else none
  | _ :: _, [] => none

def char (c : Char) : Parser Unit := string [c]

def takeWhile1 (p : Char → Bool) : Parser (List Char) := fun input =>
  if input.takeWhile p = [] then none else some (input.takeWhile p, input.dropWhile p)

def value (digits : List Char) : Nat := Nat.ofDigits 10 (digits.reverse.map fun c => c.toNat - 48)

/-- A number is read with overflow. -/
def read (digits : List Char) : Int64 := Int64.ofNat (value digits)

def parseTransportType : Parser TransportType :=
  (string "o2ib".toList *> pure .O2IB) <|> (string "tcp".toList *> pure .TCP)

def lnidParser : Parser LNid :=
  (string "0@lo".toList *> pure .Loopback) <|> (do
    let address ← takeWhile1 (· ≠ '@')
    char '@'
    let tt ← parseTransportType
    pure (.IPNet address tt))

def endpointParser : Parser Endpoint := do
  let nid ← lnidParser
  char ':'
  let pid ← read <$> takeWhile1 Char.isDigit
  char ':'
  let portal ← read <$> takeWhile1 Char.isDigit
  char ':'
  let tmid ← read <$> takeWhile1 Char.isDigit
  pure ⟨nid, pid, portal, tmid⟩

/-- What is left of the text is not looked at. -/
def readEndpoint (text : List Char) : Option Endpoint := (endpointParser text).map Prod.fst

def decimal.unsigned (n : Nat) : List Char := if n = 0 then ['0'] else ((Nat.digits 10 n).map Nat.digitChar).reverse

def decimal (x : Int64) : List Char :=
  if x.toInt < 0 then '-' :: decimal.unsigned x.toInt.natAbs else decimal.unsigned x.toInt.toNat

def encodeTT : TransportType → List Char
  | .O2IB => "o2ib".toList
  | .TCP => "tcp".toList

def encodeLNid : LNid → List Char
  | .Loopback => "0@lo".toList
  | .IPNet address tt => address ++ '@' :: encodeTT tt

def encodeEndpoint (ep : Endpoint) : List Char :=
  encodeLNid ep.network_id ++ ':' :: decimal ep.process_id ++ ':' :: decimal ep.portal_number ++
    ':' :: decimal ep.transfer_machine_id

end Halon.Mero.Lnet

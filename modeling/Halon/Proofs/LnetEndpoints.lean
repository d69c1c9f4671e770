import Halon.Mero.Lnet
import Mathlib.Data.Nat.Digits.Lemmas

/-! What the parser of endpoints accepts, and the texts it reads back. -/

namespace Halon.Mero.Lnet
open List

section
variable {c : Char} {ds : List Char} {n : Nat}

structure Digits (ds : List Char) : Prop where
  filled : ds ≠ []
  each : ∀ c ∈ ds, c.isDigit

/-- The digits without the zeros they begin with, one of which stands for zero. -/
def stripZeros (ds : List Char) : List Char := if ds.dropWhile (· = '0') = [] then ['0'] else ds.dropWhile (· = '0')

theorem digitChar_digit (small : d < 10) : (Nat.digitChar d).isDigit ∧ (Nat.digitChar d).toNat - 48 = d := by
  revert d
  decide

theorem digit_digitChar (digit : c.isDigit) : Nat.digitChar (c.toNat - 48) = c ∧ c.toNat - 48 < 10 := by
  have range : 48 ≤ c.toNat ∧ c.toNat ≤ 57 := by
    rw [Char.isDigit, Bool.and_eq_true, decide_eq_true_iff, decide_eq_true_iff] at digit
    exact ⟨UInt32.le_iff_toNat_le.mp digit.1, UInt32.le_iff_toNat_le.mp digit.2⟩
  have known : c = Char.ofNat c.toNat := (Char.ofNat_toNat c).symm
  generalize c.toNat = n at range known
  obtain ⟨low, _⟩ := range
  subst known
  interval_cases n <;> decide

theorem map_digits (small : ∀ d ∈ ds, d.isDigit) : (ds.map fun c => c.toNat - 48).map Nat.digitChar = ds := by
  rw [map_map]
  exact (map_congr_left fun c member => (digit_digitChar (small c member)).1).trans (map_id ds)

theorem value_unsigned (n : Nat) : value (decimal.unsigned n) = n := by
  rw [value, decimal.unsigned]
  split
  next zero =>
    subst zero
    rfl
  next =>
    have same : ((Nat.digits 10 n).map Nat.digitChar).map (fun c => c.toNat - 48) = Nat.digits 10 n := by
      rw [map_map]
      refine (map_congr_left fun d member => ?_).trans (map_id _)
      exact (digitChar_digit (Nat.digits_lt_base (by decide) member)).2
    rw [reverse_reverse, same, Nat.ofDigits_digits]

theorem digits_unsigned (n : Nat) : Digits (decimal.unsigned n) := by
  rw [decimal.unsigned]
  split
  next => exact ⟨cons_ne_nil _ _, forall_mem_singleton.mpr rfl⟩
  next positive =>
    constructor
    · rw [Ne, reverse_eq_nil_iff, map_eq_nil_iff]
      exact Nat.digits_ne_nil_iff_ne_zero.mpr positive
    · intro c member
      obtain ⟨d, inside, rfl⟩ := mem_map.mp (mem_reverse.mp member)
      exact (digitChar_digit (Nat.digits_lt_base (by decide) inside)).1

theorem value_cons_zero (ds : List Char) : value ('0' :: ds) = value ds := by
  rw [value, reverse_cons, map_append, Nat.ofDigits_append]
  exact Nat.add_zero _

theorem value_dropWhile (ds : List Char) : value (ds.dropWhile (· = '0')) = value ds := by
  induction ds with
  | nil => rfl
  | cons d ds ih =>
    rw [dropWhile_cons]
    split
    next zero => rw [ih, of_decide_eq_true zero, value_cons_zero]
    next => rfl

theorem unsigned_value (digits : Digits (d :: ds)) (leads : d ≠ '0') :
    decimal.unsigned (value (d :: ds)) = d :: ds := by
  have parts : Nat.digits 10 (value (d :: ds)) = (d :: ds).reverse.map fun c => c.toNat - 48 := by
    apply Nat.digits_ofDigits 10 (by decide)
    · intro l member
      obtain ⟨c, inside, rfl⟩ := mem_map.mp member
      exact (digit_digitChar (digits.each c (mem_reverse.mp inside))).2
    · intro filled zero
      simp only [reverse_cons, map_append, map_cons, map_nil, getLast_append_singleton] at zero
      have same := (digit_digitChar (digits.each d mem_cons_self)).1
      rw [zero] at same
      exact leads same.symm
  have positive : value (d :: ds) ≠ 0 := by
    apply Nat.digits_ne_nil_iff_ne_zero.mp
    rw [parts]
    simp
  rw [decimal.unsigned, if_neg positive, parts, map_digits, reverse_reverse]
  exact fun c member => digits.each c (mem_reverse.mp member)

theorem unsigned_stripped (digits : Digits ds) : decimal.unsigned (value ds) = stripZeros ds := by
  rw [← value_dropWhile, stripZeros]
  split
  next empty => rw [empty]; rfl
  next filled =>
    cases stripped : ds.dropWhile (· = '0') with
    | nil => exact absurd stripped filled
    | cons =>
      have leads := List.head?_dropWhile_not (· = '0') ds
      refine unsigned_value ⟨cons_ne_nil _ _, fun c member => digits.each c ?_⟩ ?_
      · exact (dropWhile_sublist _).subset (stripped ▸ member)
      · simpa only [stripped, List.head?_cons, decide_eq_false_iff_not] using leads

theorem value_stripped (ds : List Char) : value (stripZeros ds) = value ds := by
  rw [stripZeros, ← value_dropWhile ds]
  split
  next empty => rw [empty]; rfl
  next => rfl

theorem fits_of_written (digits : Digits ds) (same : stripZeros ds = decimal x) : value ds < 2 ^ 63 := by
  rw [decimal] at same
  split at same
  next =>
    have head : '-' ∈ decimal.unsigned (value ds) := by
      rw [unsigned_stripped digits, same]
      exact mem_cons_self
    exact absurd ((digits_unsigned _).each _ head) (by decide)
  next =>
    have equal : value ds = x.toInt.toNat := by rw [← value_stripped, same, value_unsigned]
    have bound := x.toInt_lt
    omega

theorem decimal_ofNat (fits : n < 2 ^ 63) : decimal (Int64.ofNat n) = decimal.unsigned n := by
  rw [decimal, Int64.toInt_ofNat_of_lt fits, if_neg (by omega), Int.toNat_natCast]

end

open Option
variable {α β : Type} {input rest : List Char}

section Parser

variable {x : Parser α}

theorem bind_eq_some {f : α → Parser β} :
    (x >>= f) input = some result ↔ ∃ a left, x input = some (a, left) ∧ f a left = some result := by
  rw [show (x >>= f) input = (x input).bind fun found => f found.1 found.2 from rfl, bind_eq_some_iff, Prod.exists]

theorem map_eq_some {f : α → β} : (f <$> x) input = some (b, rest) ↔ ∃ a, x input = some (a, rest) ∧ f a = b := by
  rw [← bind_pure_comp, bind_eq_some]
  constructor
  · intro parsed
    obtain ⟨a, _, found, made⟩ := parsed
    cases made
    exact ⟨a, found, rfl⟩
  · intro parsed
    obtain ⟨a, found, rfl⟩ := parsed
    exact ⟨a, rest, found, rfl⟩

theorem orElse_eq_some :
    (x <|> y) input = some result ↔ x input = some result ∨ x input = none ∧ y input = some result := by
  rw [show (x <|> y) input = (x input <|> y input) from rfl]
  cases x input <;> simp

theorem string_eq_some : string text input = some (u, rest) ↔ input = text ++ rest := by
  induction text generalizing input with
  | nil => simp [string]
  | cons c text ih =>
    cases input with
    | nil => simp [string]
    | cons =>
      rw [string, cons_append, List.cons.injEq]
      split
      next same => rw [ih, and_iff_right same.symm]
      next differ => exact iff_of_false nofun fun equal => differ equal.1.symm

theorem string_pure : (string text *> (pure a : Parser α)) input = some (b, rest) ↔ b = a ∧ input = text ++ rest := by
  rw [seqRight_eq_bind, bind_eq_some]
  constructor
  · intro parsed
    obtain ⟨_, _, found, made⟩ := parsed
    cases made
    exact ⟨rfl, string_eq_some.mp found⟩
  · intro parsed
    obtain ⟨rfl, split⟩ := parsed
    exact ⟨(), rest, string_eq_some.mpr split, rfl⟩

theorem takeWhile1_eq_some {p : Char → Bool} : takeWhile1 p input = some (taken, rest) ↔
    taken ≠ [] ∧ (∀ c ∈ taken, p c) ∧ (∀ c ∈ rest.head?, p c = false) ∧ input = taken ++ rest := by
  rw [takeWhile1]
  constructor
  · intro parsed
    split at parsed
    next => cases parsed
    next filled =>
      cases parsed
      refine ⟨filled, fun c member => all_eq_true.mp all_takeWhile c member, ?_, takeWhile_append_dropWhile.symm⟩
      have stops := List.head?_dropWhile_not p input
      intro c first
      rwa [mem_def.mp first] at stops
  · intro parts
    obtain ⟨filled, each, stops, rfl⟩ := parts
    have taking : (taken ++ rest).takeWhile p = taken ∧ (taken ++ rest).dropWhile p = rest := by
      rw [takeWhile_append_of_pos each, dropWhile_append_of_pos each]
      cases rest with
      | nil => simp
      | cons c => simp [stops c rfl]
    rw [taking.1, taking.2, if_neg filled]

end Parser

/-- A network id whose text can be told from what follows. -/
def LNid.Valid : LNid → Prop
  | .Loopback => True
  | .IPNet address _ => address ≠ [] ∧ '@' ∉ address

theorem parseTransportType_eq_some : parseTransportType input = some (tt, rest) ↔ input = encodeTT tt ++ rest := by
  constructor
  · intro parsed
    cases orElse_eq_some.mp parsed with
    | inl first =>
      obtain ⟨rfl, split⟩ := string_pure.mp first
      exact split
    | inr second =>
      obtain ⟨rfl, split⟩ := string_pure.mp second.2
      exact split
  · intro split
    subst split
    cases tt <;> rfl

theorem not_loopback (valid : (LNid.IPNet address tt).Valid) :
    encodeLNid (.IPNet address tt) ++ input ≠ "0@lo".toList ++ rest := by
  intro same
  match address with
  | [] => exact valid.1 rfl
  | [_] => cases tt <;> cases same
  | _ :: _ :: _ =>
    simp only [encodeLNid, cons_append, String.reduceToList, List.cons.injEq] at same
    exact valid.2 (same.2.1 ▸ mem_cons_of_mem _ mem_cons_self)

theorem lnidParser_eq_some : lnidParser input = some (nid, rest) ↔ nid.Valid ∧ input = encodeLNid nid ++ rest := by
  constructor
  · intro parsed
    cases orElse_eq_some.mp parsed with
    | inl first =>
      obtain ⟨rfl, split⟩ := string_pure.mp first
      exact ⟨trivial, split⟩
    | inr second =>
      obtain ⟨_, _, taken, parsed⟩ := bind_eq_some.mp second.2
      obtain ⟨_, _, separated, parsed⟩ := bind_eq_some.mp parsed
      obtain ⟨tt, _, transport, made⟩ := bind_eq_some.mp parsed
      cases made
      obtain ⟨filled, each, _, rfl⟩ := takeWhile1_eq_some.mp taken
      refine ⟨⟨filled, fun member => absurd (each _ member) (by simp)⟩, ?_⟩
      rw [string_eq_some.mp separated, parseTransportType_eq_some.mp transport, encodeLNid, append_assoc]
      rfl
  · intro parts
    obtain ⟨valid, rfl⟩ := parts
    cases nid with
    | Loopback => rfl
    | IPNet address tt =>
      refine orElse_eq_some.mpr (.inr ⟨?_, bind_eq_some.mpr ?_⟩)
      · rw [eq_none_iff_forall_ne_some]
        intro found parsed
        exact not_loopback valid (string_pure.mp parsed).2
      · refine ⟨address, '@' :: encodeTT tt ++ rest, takeWhile1_eq_some.mpr ⟨valid.1, ?_, ?_, ?_⟩, bind_eq_some.mpr ?_⟩
        · intro c member
          exact decide_eq_true fun same => valid.2 (same ▸ member)
        · intro c first
          cases first
          rfl
        · exact append_assoc _ _ _
        · refine ⟨(), encodeTT tt ++ rest, string_eq_some.mpr rfl, bind_eq_some.mpr ?_⟩
          exact ⟨tt, rest, parseTransportType_eq_some.mpr rfl, rfl⟩

/-- The text of an endpoint whose numbers are written with these digits. -/
def layout (nid : LNid) (d1 d2 d3 : List Char) : List Char := encodeLNid nid ++ ':' :: d1 ++ ':' :: d2 ++ ':' :: d3

theorem number_eq_some : (read <$> takeWhile1 Char.isDigit : Parser Int64) input = some (x, rest) ↔
    ∃ ds, Digits ds ∧ read ds = x ∧ (∀ c ∈ rest.head?, c.isDigit = false) ∧ input = ds ++ rest := by
  rw [map_eq_some]
  constructor
  · intro parsed
    obtain ⟨ds, taken, made⟩ := parsed
    obtain ⟨filled, each, stops, split⟩ := takeWhile1_eq_some.mp taken
    exact ⟨ds, ⟨filled, each⟩, made, stops, split⟩
  · intro parts
    obtain ⟨ds, digits, made, stops, split⟩ := parts
    exact ⟨ds, takeWhile1_eq_some.mpr ⟨digits.filled, digits.each, stops, split⟩, made⟩

theorem endpointParser_eq_some : endpointParser input = some (ep, rest) ↔
    ∃ d1 d2 d3, ep.network_id.Valid ∧ (Digits d1 ∧ Digits d2 ∧ Digits d3) ∧ ep = ⟨ep.network_id, read d1, read d2, read d3⟩ ∧
      (∀ c ∈ rest.head?, c.isDigit = false) ∧ input = layout ep.network_id d1 d2 d3 ++ rest := by
  have colon (left : List Char) : ∀ c ∈ (':' :: left).head?, c.isDigit = false := by
    intro c first
    cases first
    rfl
  constructor
  · intro parsed
    obtain ⟨nid, _, network, parsed⟩ := bind_eq_some.mp parsed
    obtain ⟨_, _, first, parsed⟩ := bind_eq_some.mp parsed
    obtain ⟨_, _, pid, parsed⟩ := bind_eq_some.mp parsed
    obtain ⟨_, _, second, parsed⟩ := bind_eq_some.mp parsed
    obtain ⟨_, _, portal, parsed⟩ := bind_eq_some.mp parsed
    obtain ⟨_, _, third, parsed⟩ := bind_eq_some.mp parsed
    obtain ⟨_, _, tmid, made⟩ := bind_eq_some.mp parsed
    cases made
    obtain ⟨valid, rfl⟩ := lnidParser_eq_some.mp network
    obtain ⟨d1, digits1, rfl, _, rfl⟩ := number_eq_some.mp pid
    obtain ⟨d2, digits2, rfl, _, rfl⟩ := number_eq_some.mp portal
    obtain ⟨d3, digits3, rfl, stops, rfl⟩ := number_eq_some.mp tmid
    refine ⟨d1, d2, d3, valid, ⟨digits1, digits2, digits3⟩, rfl, stops, ?_⟩
    rw [string_eq_some.mp first, string_eq_some.mp second, string_eq_some.mp third, layout]
    simp
  · intro parts
    obtain ⟨d1, d2, d3, valid, ⟨digits1, digits2, digits3⟩, made, stops, rfl⟩ := parts
    rw [made, layout]
    refine bind_eq_some.mpr ⟨ep.network_id, ':' :: (d1 ++ ':' :: (d2 ++ ':' :: (d3 ++ rest))),
      lnidParser_eq_some.mpr ⟨valid, by simp⟩, ?_⟩
    refine bind_eq_some.mpr ⟨(), d1 ++ ':' :: (d2 ++ ':' :: (d3 ++ rest)), string_eq_some.mpr rfl, ?_⟩
    refine bind_eq_some.mpr ⟨_, _, number_eq_some.mpr ⟨d1, digits1, rfl, colon _, rfl⟩, ?_⟩
    refine bind_eq_some.mpr ⟨(), d2 ++ ':' :: (d3 ++ rest), string_eq_some.mpr rfl, ?_⟩
    refine bind_eq_some.mpr ⟨_, _, number_eq_some.mpr ⟨d2, digits2, rfl, colon _, rfl⟩, ?_⟩
    refine bind_eq_some.mpr ⟨(), d3 ++ rest, string_eq_some.mpr rfl, ?_⟩
    exact bind_eq_some.mpr ⟨_, _, number_eq_some.mpr ⟨d3, digits3, rfl, stops, rfl⟩, rfl⟩

theorem endpointParser_layout (valid : nid.Valid) (pid : Digits d1) (portal : Digits d2)
    (tmid : Digits d3) : endpointParser (layout nid d1 d2 d3) = some (⟨nid, read d1, read d2, read d3⟩, []) :=
  endpointParser_eq_some.mpr ⟨d1, d2, d3, valid, ⟨pid, portal, tmid⟩, rfl, nofun, (append_nil _).symm⟩

/-- Its text shows the endpoint: the network id can be told from what follows, and no number is negative. -/
structure Endpoint.Shown (ep : Endpoint) : Prop where
  network : ep.network_id.Valid
  pid : 0 ≤ ep.process_id.toInt
  portal : 0 ≤ ep.portal_number.toInt
  tmid : 0 ≤ ep.transfer_machine_id.toInt

theorem decimal_read (positive : 0 ≤ x.toInt) : Digits (decimal x) ∧ read (decimal x) = x := by
  rw [decimal, if_neg (by omega)]
  refine ⟨digits_unsigned _, ?_⟩
  rw [read, value_unsigned, ← Int64.ofInt_eq_ofNat, Int.toNat_of_nonneg positive, Int64.ofInt_toInt]

theorem readEndpoint_encode (shown : ep.Shown) : readEndpoint (encodeEndpoint ep) = some ep := by
  obtain ⟨digits1, read1⟩ := decimal_read shown.pid
  obtain ⟨digits2, read2⟩ := decimal_read shown.portal
  obtain ⟨digits3, read3⟩ := decimal_read shown.tmid
  have parsed := endpointParser_layout shown.network digits1 digits2 digits3
  rw [read1, read2, read3] at parsed
  exact map_eq_some_iff.mpr ⟨(ep, []), parsed, rfl⟩

theorem endpoint_round_trip (shown : ep.Shown) :
    readEndpoint (encodeEndpoint ep) = some ep ∧ ∀ ep' : Endpoint, ep'.Shown →
    encodeEndpoint ep = encodeEndpoint ep' → ep = ep' := by
  refine ⟨readEndpoint_encode shown, ?_⟩
  intro ep' shown' same
  have equal : some ep = some ep' := by rw [← readEndpoint_encode shown, same, readEndpoint_encode shown']
  exact Option.some.inj equal

theorem endpoint_round_trip_tcp : readEndpoint "10.0.0.1@tcp:12345:34:101".toList =
    some ⟨.IPNet "10.0.0.1".toList .TCP, 12345, 34, 101⟩ :=
  have shown : Endpoint.Shown ⟨.IPNet "10.0.0.1".toList .TCP, 12345, 34, 101⟩ :=
    ⟨⟨by decide, by decide⟩, by decide, by decide, by decide⟩
  (endpoint_round_trip shown).1

/-- Network ids of the documented grammar. A digit may follow the transport. -/
inductive DocumentedNid where
  | loopback
  | ipv4 (o1 o2 o3 o4 : List Char) (tt : TransportType) (digit : Option Char)

namespace DocumentedNid

def Octet (ds : List Char) : Prop := Digits ds ∧ ds.length ≤ 3 ∧ value ds ≤ 255

def address (o1 o2 o3 o4 : List Char) : List Char := o1 ++ '.' :: o2 ++ '.' :: o3 ++ '.' :: o4

def Documented : DocumentedNid → Prop
  | loopback => True
  | ipv4 o1 o2 o3 o4 _ digit => (Octet o1 ∧ Octet o2 ∧ Octet o3 ∧ Octet o4) ∧ ∀ c ∈ digit, c.isDigit

def digit : DocumentedNid → Option Char
  | loopback => none
  | ipv4 _ _ _ _ _ digit => digit

def nid : DocumentedNid → LNid
  | loopback => .Loopback
  | ipv4 o1 o2 o3 o4 tt _ => .IPNet (address o1 o2 o3 o4) tt

def text (g : DocumentedNid) : List Char := encodeLNid g.nid ++ g.digit.toList

theorem octet_plain (octet : Octet ds) : '@' ∉ ds := fun member => absurd (octet.1.each _ member) (by decide)

variable {g : DocumentedNid}

theorem valid (documented : g.Documented) : g.nid.Valid := by
  cases g with
  | loopback => trivial
  | ipv4 =>
    obtain ⟨⟨first, second, third, fourth⟩, _⟩ := documented
    refine ⟨by simp [address], ?_⟩
    simp [address, octet_plain first, octet_plain second, octet_plain third, octet_plain fourth]

theorem digit_digit (documented : g.Documented) (follows : g.digit = some c) : c.isDigit := by
  cases g with
  | loopback => cases follows
  | ipv4 => exact documented.2 c follows

end DocumentedNid

/-- Digits that stand for the number, up to zeros at the front. -/
def Writes (ds : List Char) (x : Int64) : Prop := Digits ds ∧ stripZeros ds = decimal x

def Fits (ds : List Char) : Prop := Digits ds ∧ value ds < 2 ^ 63

variable {ds : List Char}

theorem writes_read (fits : Fits ds) : Writes ds (read ds) := by
  refine ⟨fits.1, ?_⟩
  rw [read, decimal_ofNat fits.2, unsigned_stripped fits.1]

theorem Writes.fits (writes : Writes ds x) : Fits ds :=
  ⟨writes.1, fits_of_written writes.1 writes.2⟩

def numbers (n1 n2 n3 : Nat) : List Char :=
  ':' :: decimal.unsigned n1 ++ ':' :: decimal.unsigned n2 ++ ':' :: decimal.unsigned n3

/-- The text is read, and the encoding of the result is the text. -/
def ReadBack (text : List Char) : Prop := ∃ ep, readEndpoint text = some ep ∧ encodeEndpoint ep = text

/-- The text is the encoding of the endpoint, up to zeros at the front of its numbers. -/
def Encodes (text : List Char) (ep : Endpoint) : Prop :=
  ∃ d1 d2 d3, text = layout ep.network_id d1 d2 d3 ∧ Writes d1 ep.process_id ∧ Writes d2 ep.portal_number ∧
    Writes d3 ep.transfer_machine_id

/-- A network id and three numbers that are not too large, and nothing else. -/
def Formed (text : List Char) : Prop := ∃ nid d1 d2 d3, text = layout nid d1 d2 d3 ∧ nid.Valid ∧ Fits d1 ∧ Fits d2 ∧ Fits d3

theorem documented_read {g : DocumentedNid} {n1 n2 n3 : Nat} (documented : g.Documented)
    (fits : n1 < 2 ^ 63 ∧ n2 < 2 ^ 63 ∧ n3 < 2 ^ 63) :
    ReadBack (g.text ++ numbers n1 n2 n3) ↔ g.digit = none := by
  constructor
  · intro readable
    obtain ⟨ep, accepted, _⟩ := readable
    obtain ⟨_, parsed, _⟩ := map_eq_some_iff.mp accepted
    obtain ⟨nid, _, network, parsed⟩ := bind_eq_some.mp parsed
    obtain ⟨_, _, colon, _⟩ := bind_eq_some.mp parsed
    cases follows : g.digit with
    | none => rfl
    | some c =>
      have taken := lnidParser_eq_some.mpr ⟨DocumentedNid.valid documented, append_assoc _ [c] (numbers n1 n2 n3)⟩
      rw [DocumentedNid.text, follows, toList_some, taken, string_eq_some.mp colon] at network
      cases network
      exact absurd (DocumentedNid.digit_digit documented follows) (by decide)
  · intro plain
    obtain ⟨fits1, fits2, fits3⟩ := fits
    have encoded : encodeEndpoint ⟨g.nid, .ofNat n1, .ofNat n2, .ofNat n3⟩ = g.text ++ numbers n1 n2 n3 := by
      simp [encodeEndpoint, decimal_ofNat fits1, decimal_ofNat fits2, decimal_ofNat fits3, DocumentedNid.text, numbers, plain]
    refine ⟨_, ?_, encoded⟩
    rw [← encoded]
    refine readEndpoint_encode ⟨DocumentedNid.valid documented, ?_, ?_, ?_⟩
    · rw [Int64.toInt_ofNat_of_lt fits1]
      omega
    · rw [Int64.toInt_ofNat_of_lt fits2]
      omega
    · rw [Int64.toInt_ofNat_of_lt fits3]
      omega

theorem accepted_encodes {text : List Char} (accepted : readEndpoint text = some ep) : Encodes text ep ↔ Formed text := by
  obtain ⟨⟨_, _⟩, parsed, rfl⟩ := map_eq_some_iff.mp accepted
  constructor
  · intro shown
    obtain ⟨d1, d2, d3, laid, pid, portal, tmid⟩ := shown
    obtain ⟨_, _, _, valid, _⟩ := endpointParser_eq_some.mp parsed
    exact ⟨_, d1, d2, d3, laid, valid, pid.fits, portal.fits, tmid.fits⟩
  · intro formed
    obtain ⟨nid, d1, d2, d3, rfl, valid, pid, portal, tmid⟩ := formed
    rw [endpointParser_layout valid pid.1 portal.1 tmid.1] at parsed
    cases parsed
    exact ⟨d1, d2, d3, rfl, writes_read pid, writes_read portal, writes_read tmid⟩

/-- Documented texts are read back iff no digit follows the transport, and what an accepted text shows is all of it
iff nothing follows the third number and no number is too large. -/
theorem endpoint_grammar (g : DocumentedNid) (n1 n2 n3 : Nat) (text : List Char) (ep : Endpoint) :
    (g.Documented → n1 < 2 ^ 63 ∧ n2 < 2 ^ 63 ∧ n3 < 2 ^ 63 →
      (ReadBack (g.text ++ numbers n1 n2 n3) ↔ g.digit = none)) ∧
    (readEndpoint text = some ep → (Encodes text ep ↔ Formed text)) :=
  ⟨documented_read, accepted_encodes⟩

theorem endpoint_misread : (∃ g : DocumentedNid, g.Documented ∧ readEndpoint (g.text ++ numbers 12345 34 101) = none) ∧
    ∃ ep, readEndpoint "0@lo:12345:34:101 up".toList = some ep ∧ ¬ Encodes "0@lo:12345:34:101 up".toList ep := by
  constructor
  · refine ⟨.ipv4 ['1', '0'] ['0'] ['0'] ['1'] .TCP (some '1'), ?_, by decide +kernel⟩
    refine ⟨⟨?_, ?_, ?_, ?_⟩, by simp⟩ <;> exact ⟨⟨by decide, by simp⟩, by decide, by decide⟩
  · refine ⟨⟨.Loopback, 12345, 34, 101⟩, by decide +kernel, ?_⟩
    intro encodes
    obtain ⟨d1, d2, d3, laid, pid, portal, tmid⟩ := encodes
    have left : (endpointParser "0@lo:12345:34:101 up".toList).map Prod.snd = some " up".toList := by decide +kernel
    have valid : LNid.Loopback.Valid := trivial
    rw [laid, endpointParser_layout valid pid.1 portal.1 tmid.1] at left
    cases left

end Halon.Mero.Lnet

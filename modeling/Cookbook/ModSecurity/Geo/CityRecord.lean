import Cookbook.Lib.Buffer
import Cookbook.Lib.CText
import Cookbook.ModSecurity.Text.Hex

/-!
# City records

`geo_lookup` decodes a record of fifty bytes: the country, three fields that
end with a zero, two coordinates, and sometimes one more code.  No result
stands for an access outside of the record.
-/

namespace Cookbook.ModSecurity.Geo

open Cookbook.Lib.Buffer Cookbook.Lib.CText
open Cookbook.ModSecurity.Text (Bytes)

def geoCityRecordLen : Nat := 50

def geoCountryLast : Nat := 250

def geoCityDatabase1 : Nat := 2

/-- What is read of `geo_db`. -/
structure GeoDb where
  db : Bytes
  dbtype : Nat
  ctryOffset : Nat

def geoCountryCode : List String :=
  ["--",
   "AP", "EU", "AD", "AE", "AF", "AG", "AI", "AL", "AM", "AN",
   "AO", "AQ", "AR", "AS", "AT", "AU", "AW", "AZ", "BA", "BB",
   "BD", "BE", "BF", "BG", "BH", "BI", "BJ", "BM", "BN", "BO",
   "BR", "BS", "BT", "BV", "BW", "BY", "BZ", "CA", "CC", "CD",
   "CF", "CG", "CH", "CI", "CK", "CL", "CM", "CN", "CO", "CR",
   "CU", "CV", "CX", "CY", "CZ", "DE", "DJ", "DK", "DM", "DO",
   "DZ", "EC", "EE", "EG", "EH", "ER", "ES", "ET", "FI", "FJ",
   "FK", "FM", "FO", "FR", "FX", "GA", "GB", "GD", "GE", "GF",
   "GH", "GI", "GL", "GM", "GN", "GP", "GQ", "GR", "GS", "GT",
   "GU", "GW", "GY", "HK", "HM", "HN", "HR", "HT", "HU", "ID",
   "IE", "IL", "IN", "IO", "IQ", "IR", "IS", "IT", "JM", "JO",
   "JP", "KE", "KG", "KH", "KI", "KM", "KN", "KP", "KR", "KW",
   "KY", "KZ", "LA", "LB", "LC", "LI", "LK", "LR", "LS", "LT",
   "LU", "LV", "LY", "MA", "MC", "MD", "MG", "MH", "MK", "ML",
   "MM", "MN", "MO", "MP", "MQ", "MR", "MS", "MT", "MU", "MV",
   "MW", "MX", "MY", "MZ", "NA", "NC", "NE", "NF", "NG", "NI",
   "NL", "NO", "NP", "NR", "NU", "NZ", "OM", "PA", "PE", "PF",
   "PG", "PH", "PK", "PL", "PM", "PN", "PR", "PS", "PT", "PW",
   "PY", "QA", "RE", "RO", "RU", "RW", "SA", "SB", "SC", "SD",
   "SE", "SG", "SH", "SI", "SJ", "SK", "SL", "SM", "SN", "SO",
   "SR", "ST", "SV", "SY", "SZ", "TC", "TD", "TF", "TG", "TH",
   "TJ", "TK", "TM", "TN", "TO", "TL", "TR", "TT", "TV", "TW",
   "TZ", "UA", "UG", "UM", "US", "UY", "UZ", "VA", "VC", "VE",
   "VG", "VI", "VN", "VU", "WF", "WS", "YE", "YT", "RS", "ZA",
   "ZM", "ME", "ZW", "A1", "A2", "O1", "AX", "GG", "IM", "JE"]

/-- `geo_rec`.  The code, the names and the continent of a country are those at
its number in the tables, and a coordinate is the number before it is scaled. -/
structure GeoRec where
  country : Nat
  region : Bytes
  city : Bytes
  postalCode : Bytes
  latitude : Nat
  longitude : Nat
  dmaCode : Nat
  areaCode : Nat
  deriving DecidableEq

/-- The array `cbuf`, when the record at a position has been read into it: what
the file does not reach is as it was. -/
def loadRecord (geo : GeoDb) (recVal : Nat) (stale : Bytes) : Bytes :=
  let seekto := (recVal + 5 * geo.ctryOffset) % 2 ^ 32
  let read := (geo.db.drop seekto).take geoCityRecordLen
  read ++ stale.drop read.length

/-- The loop of `field_length`, with the number of turns that are left. -/
def fieldLoop (cbuf : Bytes) (field : Nat) : Nat → Nat → Option Nat
  | 0, i => some i
  | turns + 1, i =>
    match cbuf[field + i]? with
    | none => none
    | some c => if c = 0 then some i else fieldLoop cbuf field turns (i + 1)

def fieldLength (cbuf : Bytes) (field : Nat) (maxlen : Int) : Option Nat :=
  fieldLoop cbuf field maxlen.toNat 0

/-- `rec_offset` and `remaining`, and all values that `remaining` had. -/
structure Decoding where
  recOffset : Nat
  remaining : Int
  counters : List Int

def Decoding.advance (decoding : Decoding) (n : Nat) : Decoding where
  recOffset := decoding.recOffset + n
  remaining := decoding.remaining - n
  counters := decoding.counters ++ [decoding.remaining - n]

/-- A field with its copy by `apr_pstrmemdup`. -/
def readField (cbuf : Bytes) (decoding : Decoding) :
    Option (Bytes × Decoding) := do
  let fieldLen ← fieldLength cbuf decoding.recOffset decoding.remaining
  let copy ← read? cbuf decoding.recOffset (sizeT decoding.remaining)
  return (copy, decoding.advance (fieldLen + 1))

def readNumber (cbuf : Bytes) (recOffset : Nat) : Option Nat := do
  let low ← cbuf[recOffset]?
  let middle ← cbuf[recOffset + 1]?
  let high ← cbuf[recOffset + 2]?
  return low.toNat + middle.toNat * 2 ^ 8 + high.toNat * 2 ^ 16

def HasDmaCode (dbtype country : Nat) : Prop := dbtype = geoCityDatabase1 ∧
    ['U', 'S'] <+: (geoCountryCode.getD country "").toList

instance (dbtype country : Nat) : Decidable (HasDmaCode dbtype country) :=
  inferInstanceAs (Decidable (_ ∧ _))

def readCodes (dbtype : Nat) (cbuf : Bytes) (geoRec : GeoRec)
    (decoding : Decoding) : Option (GeoRec × Decoding) := do
  let latitude ← readNumber cbuf decoding.recOffset
  let decoding := decoding.advance 3
  let longitude ← readNumber cbuf decoding.recOffset
  let decoding := decoding.advance 3
  let geoRec := { geoRec with latitude := latitude, longitude := longitude }
  if HasDmaCode dbtype geoRec.country then
    let itmp ← readNumber cbuf decoding.recOffset
    return ({ geoRec with dmaCode := itmp / 1000, areaCode := itmp % 1000 }, decoding.advance 6)
  else
    return (geoRec, decoding)

def GeoRec.ofFields (country : Nat) (region city postalCode : Bytes) :
    GeoRec where
  country := country
  region := region
  city := city
  postalCode := postalCode
  latitude := 0
  longitude := 0
  dmaCode := 0
  areaCode := 0

/-- The fields of a record with a known country. -/
def readRecord (dbtype : Nat) (cbuf : Bytes) (country : Nat) :
    Option (GeoRec × Decoding) := do
  let decoding : Decoding := ⟨0, geoCityRecordLen, []⟩
  let (region, decoding) ← readField cbuf (decoding.advance 1)
  let (city, decoding) ← readField cbuf decoding
  let (postalCode, decoding) ← readField cbuf decoding
  readCodes dbtype cbuf (.ofFields country region city postalCode) decoding

inductive CityOutcome where
  | noGeoData (country : Nat)
  | succeeded (geoRec : GeoRec) (decoding : Decoding)

/-- `geo_lookup` from the city record on. -/
def decodeCity (dbtype : Nat) (cbuf : Bytes) : Option CityOutcome := do
  let country ← cbuf[0]?
  if country.toNat = 0 ∨ country.toNat > geoCountryLast then
    return .noGeoData country.toNat
  else
    let (geoRec, decoding) ← readRecord dbtype cbuf country.toNat
    return .succeeded geoRec decoding

def NeverNegative (decoding : Decoding) : Prop :=
  ∀ counter ∈ decoding.counters, 0 ≤ counter

def codesLength (dbtype country : Nat) : Nat :=
  if HasDmaCode dbtype country then 12 else 6

/-- Every access is inside, and the counter is never negative; the copy of a
field ends with the record at the latest. -/
def DecodesInside (dbtype : Nat) (cbuf : Bytes) : Prop :=
  ∃ outcome, decodeCity dbtype cbuf = some outcome ∧
    ∀ geoRec decoding, outcome = .succeeded geoRec decoding →
      NeverNegative decoding ∧
        ∀ field ∈ [geoRec.region, geoRec.city, geoRec.postalCode], field <:+ cbuf

def HasCountry (cbuf : Bytes) : Prop :=
  ∃ country ∈ cbuf[0]?, country.toNat ≠ 0 ∧ country.toNat ≤ geoCountryLast

/-- Three fields that end inside the record, with as many bytes behind them as
are subtracted from the counter. -/
def HasFields (dbtype : Nat) (cbuf : Bytes) : Prop :=
  ∃ country region city postalCode rest, cbuf =
      country :: (region ++ 0 :: (city ++ 0 :: (postalCode ++ 0 :: rest))) ∧
      0 ∉ region ∧ 0 ∉ city ∧ 0 ∉ postalCode ∧ codesLength dbtype country.toNat ≤ rest.length

section

variable {cbuf before rest field : Bytes} {decoding : Decoding}

/-- The decoding has come to the bytes `rest` of the record. -/
structure At (cbuf before rest : Bytes) (decoding : Decoding) : Prop where
  split : cbuf = before ++ rest
  recOffset : decoding.recOffset = before.length
  remaining : decoding.remaining = rest.length

structure Overrun (cbuf : Bytes) (decoding : Decoding) : Prop where
  recOffset : decoding.recOffset = cbuf.length + 1
  remaining : decoding.remaining = -1

theorem fieldLoop_eq (before seen rest : Bytes) :
    fieldLoop (before ++ (seen ++ rest)) before.length rest.length seen.length =
      some (seen.length + (cString rest).length) := by
  induction rest generalizing seen with
  | nil => rfl
  | cons c rest ih =>
    have here : (before ++ (seen ++ c :: rest))[before.length + seen.length]? =
        some c := by
      rw [List.getElem?_append_right (Nat.le_add_right _ _),
        Nat.add_sub_cancel_left, List.getElem?_append_right le_rfl,
        Nat.sub_self, List.getElem?_cons_zero]
    rw [List.length_cons, fieldLoop, here]
    by_cases zero : c = 0
    · rw [cString, List.takeWhile_cons_of_neg (by simpa using zero)]
      simp only [zero, if_true, List.length_nil, Nat.add_zero]
    · have next := ih (seen ++ [c])
      rw [List.append_assoc, List.singleton_append, List.length_append,
        List.length_singleton] at next
      have goesOn : cString (c :: rest) = c :: cString rest :=
        List.takeWhile_cons_of_pos (by simpa using zero)
      simp only [zero, if_false]
      rw [next, goesOn, List.length_cons]
      congr 1
      omega

theorem At.readField
    (isAt : At cbuf before rest decoding) (small : cbuf.length < 2 ^ 64) :
    Geo.readField cbuf decoding =
      some (rest, decoding.advance ((cString rest).length + 1)) := by
  obtain ⟨rfl, recOffset, remaining⟩ := isAt
  rw [List.length_append] at small
  have length : fieldLength (before ++ rest) before.length rest.length =
      some (cString rest).length := by
    have loop := fieldLoop_eq before [] rest
    rwa [List.nil_append, List.length_nil, Nat.zero_add] at loop
  have copy : read? (before ++ rest) before.length rest.length = some rest := by
    have readBack := read?_append before rest []
    rwa [List.append_nil] at readBack
  rw [Geo.readField, recOffset, remaining, length, sizeT_natCast (by omega), copy]
  rfl

theorem At.advance (isAt : At cbuf before (field ++ rest) decoding) :
    At cbuf (before ++ field) rest (decoding.advance field.length) where
  split := by rw [isAt.split, List.append_assoc]
  recOffset := by rw [Decoding.advance, isAt.recOffset, List.length_append]
  remaining := by
    have remaining := isAt.remaining
    rw [List.length_append] at remaining
    simp only [Decoding.advance]
    omega

theorem At.readField_terminated
    (isAt : At cbuf before (field ++ 0 :: rest) decoding)
    (small : cbuf.length < 2 ^ 64) (noZero : 0 ∉ field) :
    Geo.readField cbuf decoding =
        some (field ++ 0 :: rest, decoding.advance (field.length + 1)) ∧
      At cbuf (before ++ (field ++ [0])) rest (decoding.advance (field.length + 1)) := by
  refine ⟨?_, ?_⟩
  · rw [isAt.readField small, cString_append_zero noZero]
  · have next : At cbuf before (field ++ [0] ++ rest) decoding := by
      rw [List.append_assoc]
      exact isAt
    have advanced := next.advance
    rwa [List.length_append, List.length_singleton] at advanced

theorem At.readField_unterminated
    (isAt : At cbuf before rest decoding) (small : cbuf.length < 2 ^ 64)
    (noZero : 0 ∉ rest) :
    ∃ next, Geo.readField cbuf decoding = some (rest, next) ∧ Overrun cbuf next := by
  refine ⟨_, isAt.readField small, ?_, ?_⟩
  · rw [Decoding.advance, isAt.recOffset, cString_eq_self noZero, isAt.split,
      List.length_append]
    rfl
  · rw [Decoding.advance, isAt.remaining, cString_eq_self noZero]
    push_cast
    omega

theorem Overrun.readField (overrun : Overrun cbuf decoding) :
    Geo.readField cbuf decoding = none := by
  have outside : read? cbuf (cbuf.length + 1) (sizeT (-1)) = none := by
    rw [read?, if_neg (by omega)]
  rw [Geo.readField, overrun.recOffset, overrun.remaining, outside]
  rfl

theorem readNumber_of_le {recOffset : Nat} (le : recOffset + 3 ≤ cbuf.length) :
    ∃ number, readNumber cbuf recOffset = some number := by
  rw [readNumber, List.getElem?_eq_getElem (by omega),
    List.getElem?_eq_getElem (by omega), List.getElem?_eq_getElem (by omega)]
  exact ⟨_, rfl⟩

theorem readNumber_of_lt
    {recOffset : Nat} (less : cbuf.length < recOffset + 3) :
    readNumber cbuf recOffset = none := by
  have outside : cbuf[recOffset + 2]? = none := List.getElem?_eq_none (by omega)
  rw [readNumber, outside]
  cases cbuf[recOffset]? with
  | none => rfl
  | some low => cases cbuf[recOffset + 1]? <;> rfl

/-! ## The codes -/

variable {dbtype : Nat} {geoRec : GeoRec}

theorem neverNegative_advance_iff {n : Nat} : NeverNegative (decoding.advance n) ↔
    NeverNegative decoding ∧ (n : Int) ≤ decoding.remaining := by
  simp only [NeverNegative, Decoding.advance, List.forall_mem_append,
    List.forall_mem_singleton, Int.sub_nonneg]

theorem readCodes_of_lt (less : cbuf.length < decoding.recOffset + 6) :
    readCodes dbtype cbuf geoRec decoding = none := by
  rw [readCodes]
  cases readNumber cbuf decoding.recOffset with
  | none => rfl
  | some latitude =>
    have outside : readNumber cbuf (decoding.advance 3).recOffset = none := by
      apply readNumber_of_lt
      simp only [Decoding.advance]
      omega
    dsimp only [Option.bind_eq_bind, Option.bind_some]
    rw [outside]
    rfl

theorem readCodes_of_le (dbtype : Nat) (geoRec : GeoRec)
    (le : decoding.recOffset + 6 ≤ cbuf.length) :
    ∃ other : GeoRec, other.region = geoRec.region ∧
      other.city = geoRec.city ∧ other.postalCode = geoRec.postalCode ∧
      readCodes dbtype cbuf geoRec decoding = if HasDmaCode dbtype geoRec.country then
          let decoding := (decoding.advance 3).advance 3
          (readNumber cbuf decoding.recOffset).map fun itmp =>
            ({ other with dmaCode := itmp / 1000, areaCode := itmp % 1000 }, decoding.advance 6)
        else some (other, (decoding.advance 3).advance 3) := by
  have first : decoding.recOffset + 3 ≤ cbuf.length := by omega
  have second : (decoding.advance 3).recOffset + 3 ≤ cbuf.length := le
  obtain ⟨latitude, hasLatitude⟩ := readNumber_of_le first
  obtain ⟨longitude, hasLongitude⟩ := readNumber_of_le second
  refine ⟨{ geoRec with latitude := latitude, longitude := longitude }, rfl, rfl, rfl, ?_⟩
  rw [readCodes, hasLatitude]
  dsimp only [Option.bind_eq_bind, Option.bind_some]
  rw [hasLongitude]
  dsimp only [Option.bind_some]
  split
  · cases readNumber cbuf ((decoding.advance 3).advance 3).recOffset <;> rfl
  · rfl

theorem At.readCodes_iff
    (dbtype : Nat) (geoRec : GeoRec) (isAt : At cbuf before rest decoding)
    (nonnegative : NeverNegative decoding) :
    (∃ result, readCodes dbtype cbuf geoRec decoding = some result ∧ NeverNegative result.2) ↔
      codesLength dbtype geoRec.country ≤ rest.length := by
  have total : cbuf.length = before.length + rest.length := by
    rw [isAt.split, List.length_append]
  have offset := isAt.recOffset
  have remaining := isAt.remaining
  have counted (le : 6 ≤ rest.length) : NeverNegative ((decoding.advance 3).advance 3) := by
    rw [neverNegative_advance_iff, neverNegative_advance_iff]
    simp only [Decoding.advance]
    exact ⟨⟨nonnegative, by omega⟩, by omega⟩
  rw [codesLength]
  by_cases enough : decoding.recOffset + 6 ≤ cbuf.length
  · obtain ⟨other, -, -, -, reads⟩ := readCodes_of_le dbtype geoRec enough
    rw [reads]
    split
    · have last : ((decoding.advance 3).advance 3).remaining = rest.length - 6 := by
        simp only [Decoding.advance]
        omega
      generalize isNext : (decoding.advance 3).advance 3 = next
        at counted last ⊢
      have offset : next.recOffset = before.length + 6 := by
        rw [← isNext, ← isAt.recOffset]
        rfl
      by_cases third : next.recOffset + 3 ≤ cbuf.length
      · obtain ⟨itmp, hasCode⟩ := readNumber_of_le third
        dsimp only
        rw [hasCode, Option.map_some]
        constructor
        · rintro ⟨result, ⟨⟩, never⟩
          have le := (neverNegative_advance_iff.mp never).2
          omega
        · intro le
          refine ⟨_, rfl, neverNegative_advance_iff.mpr ⟨counted ?_, ?_⟩⟩ <;>
            omega
      · dsimp only
        rw [readNumber_of_lt (by omega), Option.map_none]
        refine iff_of_false ?_ (by omega)
        rintro ⟨result, reads, -⟩
        cases reads
    · exact iff_of_true ⟨_, rfl, counted (by omega)⟩ (by omega)
  · rw [readCodes_of_lt (by omega)]
    refine iff_of_false ?_ ?_
    · rintro ⟨result, reads, -⟩
      cases reads
    · split <;> omega

theorem readCodes_fields {result : GeoRec × Decoding}
    (reads : readCodes dbtype cbuf geoRec decoding = some result) :
    result.1.region = geoRec.region ∧ result.1.city = geoRec.city ∧
      result.1.postalCode = geoRec.postalCode := by
  by_cases enough : decoding.recOffset + 6 ≤ cbuf.length
  · obtain ⟨other, region, city, postalCode, same⟩ := readCodes_of_le dbtype geoRec enough
    rw [same] at reads
    split at reads
    · obtain ⟨itmp, -, rfl⟩ := Option.map_eq_some_iff.mp reads
      exact ⟨region, city, postalCode⟩
    · obtain rfl := Option.some.inj reads
      exact ⟨region, city, postalCode⟩
  · rw [readCodes_of_lt (by omega)] at reads
    cases reads

theorem At.readField_bind
    {beta : Type} {next : Bytes × Decoding → Option beta} {result : beta}
    (isAt : At cbuf before rest decoding) (small : cbuf.length < 2 ^ 64)
    (stops : ∀ copy decoding, Overrun cbuf decoding →
      next (copy, decoding) = none) :
    (Geo.readField cbuf decoding >>= next) = some result ↔
      ∃ field after, rest = field ++ 0 :: after ∧ 0 ∉ field ∧
        next (rest, decoding.advance (field.length + 1)) = some result := by
  constructor
  · intro reads
    by_cases terminated : 0 ∈ rest
    · obtain ⟨field, after, rfl, noZero⟩ := List.eq_append_cons_of_mem terminated
      rw [(isAt.readField_terminated small noZero).1] at reads
      exact ⟨field, after, rfl, noZero, reads⟩
    · obtain ⟨last, isLast, overrun⟩ := isAt.readField_unterminated small terminated
      rw [isLast] at reads
      cases (stops rest last overrun).symm.trans reads
  · rintro ⟨field, after, rfl, noZero, reads⟩
    rw [(isAt.readField_terminated small noZero).1]
    exact reads

theorem Overrun.readField_bind {beta : Type} (overrun : Overrun cbuf decoding)
    (next : Bytes × Decoding → Option beta) :
    (Geo.readField cbuf decoding >>= next) = none := by
  rw [overrun.readField]
  rfl

theorem Overrun.readCodes
    (overrun : Overrun cbuf decoding) (dbtype : Nat) (geoRec : GeoRec) :
    Geo.readCodes dbtype cbuf geoRec decoding = none := by
  apply readCodes_of_lt
  rw [overrun.recOffset]
  omega

def behindCountry : Decoding := (⟨0, geoCityRecordLen, []⟩ : Decoding).advance 1

def behindFields (region city postalCode : Bytes) : Decoding :=
  ((behindCountry.advance (region.length + 1)).advance
    (city.length + 1)).advance (postalCode.length + 1)

/-- Some bytes of the record have been read, and the counter was never
negative. -/
def Counted (cbuf rest : Bytes) (decoding : Decoding) : Prop :=
  (∃ before, At cbuf before rest decoding) ∧ NeverNegative decoding

theorem Counted.advance (counted : Counted cbuf (field ++ rest) decoding) :
    Counted cbuf rest (decoding.advance field.length) := by
  obtain ⟨⟨before, isAt⟩, nonnegative⟩ := counted
  refine ⟨⟨_, isAt.advance⟩, ?_⟩
  rw [neverNegative_advance_iff, isAt.remaining, List.length_append]
  exact ⟨nonnegative, by omega⟩

theorem Counted.advance_terminated
    (counted : Counted cbuf (field ++ 0 :: rest) decoding) :
    Counted cbuf rest (decoding.advance (field.length + 1)) := by
  rw [← List.singleton_append, ← List.append_assoc] at counted
  have advanced := counted.advance
  rwa [List.length_append, List.length_singleton] at advanced

variable {country : UInt8}

theorem counted_behindCountry
    (length : (country :: rest).length = geoCityRecordLen) :
    Counted (country :: rest) rest behindCountry := by
  have start : Counted (country :: rest) ([country] ++ rest) ⟨0, geoCityRecordLen, []⟩ :=
    ⟨⟨[], rfl, rfl, by rw [List.singleton_append, length]⟩,
      fun _ member => absurd member List.not_mem_nil⟩
  exact start.advance

theorem readRecord_eq_some_iff {result : GeoRec × Decoding}
    (length : (country :: rest).length = geoCityRecordLen) :
    readRecord dbtype (country :: rest) country.toNat = some result ↔
      ∃ region city postalCode after,
        rest = region ++ 0 :: (city ++ 0 :: (postalCode ++ 0 :: after)) ∧
          0 ∉ region ∧ 0 ∉ city ∧ 0 ∉ postalCode ∧
            readCodes dbtype (country :: rest) (.ofFields country.toNat rest
                (city ++ 0 :: (postalCode ++ 0 :: after)) (postalCode ++ 0 :: after))
                (behindFields region city postalCode) =
              some result := by
  have small : (country :: rest).length < 2 ^ 64 := by
    rw [length]
    decide
  obtain ⟨⟨_, isFirst⟩, _⟩ := counted_behindCountry length
  rw [readRecord]
  dsimp only
  rw [← behindCountry, isFirst.readField_bind small fun _ _ overrun => overrun.readField_bind _]
  constructor
  · rintro ⟨region, behindRegion, rfl, noRegion, reads⟩
    obtain ⟨-, isSecond⟩ := isFirst.readField_terminated small noRegion
    rw [isSecond.readField_bind small fun _ _ overrun => overrun.readField_bind _] at reads
    obtain ⟨city, behindCity, rfl, noCity, reads⟩ := reads
    obtain ⟨-, isThird⟩ := isSecond.readField_terminated small noCity
    rw [isThird.readField_bind small fun _ _ overrun => overrun.readCodes _ _] at reads
    obtain ⟨postalCode, after, rfl, noPostalCode, reads⟩ := reads
    exact ⟨region, city, postalCode, after, rfl, noRegion, noCity, noPostalCode, reads⟩
  · rintro ⟨region, city, postalCode, after, rfl, noRegion, noCity, noPostalCode, reads⟩
    obtain ⟨-, isSecond⟩ := isFirst.readField_terminated small noRegion
    obtain ⟨-, isThird⟩ := isSecond.readField_terminated small noCity
    refine ⟨region, _, rfl, noRegion, ?_⟩
    rw [isSecond.readField_bind small fun _ _ overrun => overrun.readField_bind _]
    refine ⟨city, _, rfl, noCity, ?_⟩
    rw [isThird.readField_bind small fun _ _ overrun => overrun.readCodes _ _]
    exact ⟨postalCode, after, rfl, noPostalCode, reads⟩

theorem readRecord_iff (length : (country :: rest).length = geoCityRecordLen) :
    (∃ result, readRecord dbtype (country :: rest) country.toNat = some result ∧
        NeverNegative result.2 ∧
          ∀ field ∈ [result.1.region, result.1.city, result.1.postalCode],
            field <:+ country :: rest) ↔
      HasFields dbtype (country :: rest) := by
  constructor
  · rintro ⟨result, reads, never, -⟩
    obtain ⟨region, city, postalCode, after, rfl, noRegion, noCity,
      noPostalCode, reads⟩ := (readRecord_eq_some_iff length).mp reads
    obtain ⟨⟨_, isLast⟩, counted⟩ :=
      (counted_behindCountry length).advance_terminated.advance_terminated
        |>.advance_terminated
    exact ⟨country, region, city, postalCode, after, rfl, noRegion, noCity, noPostalCode,
        (isLast.readCodes_iff dbtype _ counted).mp ⟨result, reads, never⟩⟩
  · rintro ⟨_, region, city, postalCode, after, ⟨⟩, noRegion, noCity, noPostalCode, enough⟩
    obtain ⟨⟨_, isLast⟩, counted⟩ :=
      (counted_behindCountry length).advance_terminated.advance_terminated
        |>.advance_terminated
    obtain ⟨result, reads, never⟩ := (isLast.readCodes_iff dbtype (.ofFields country.toNat
        (region ++ 0 :: (city ++ 0 :: (postalCode ++ 0 :: after)))
        (city ++ 0 :: (postalCode ++ 0 :: after))
        (postalCode ++ 0 :: after)) counted).mpr enough
    have isResult := (readRecord_eq_some_iff length).mpr
        ⟨region, city, postalCode, after, rfl, noRegion, noCity, noPostalCode, reads⟩
    obtain ⟨isRegion, isCity, isPostalCode⟩ := readCodes_fields reads
    have behind (field after : Bytes) : after <:+ field ++ 0 :: after :=
      (List.suffix_cons 0 after).trans (List.suffix_append field _)
    have regionInside := List.suffix_cons country
      (region ++ 0 :: (city ++ 0 :: (postalCode ++ 0 :: after)))
    have cityInside := (behind region _).trans regionInside
    refine ⟨result, isResult, never, ?_⟩
    rw [isRegion, isCity, isPostalCode]
    simp only [List.forall_mem_cons]
    exact ⟨regionInside, cityInside, (behind city _).trans cityInside,
        fun _ member => absurd member List.not_mem_nil⟩

theorem length_loadRecord (geo : GeoDb) (recVal : Nat) {stale : Bytes}
    (length : stale.length = geoCityRecordLen) :
    (loadRecord geo recVal stale).length = geoCityRecordLen := by
  rw [loadRecord]
  simp only [List.length_append, List.length_drop, List.length_take, length]
  omega

theorem decodesInside_of_length
    (dbtype : Nat) (length : cbuf.length = geoCityRecordLen) :
    DecodesInside dbtype cbuf ↔ ¬ HasCountry cbuf ∨ HasFields dbtype cbuf := by
  obtain ⟨country, rest, rfl⟩ := List.exists_cons_of_length_pos (by rw [length]; decide)
  have isHead : (country :: rest)[0]? = some country := rfl
  have hasCountry : HasCountry (country :: rest) ↔
      ¬ (country.toNat = 0 ∨ country.toNat > geoCountryLast) := by
    rw [not_or, Nat.not_lt]
    constructor
    · rintro ⟨_, ⟨⟩, proper⟩
      exact proper
    · exact fun proper => ⟨country, rfl, proper⟩
  rw [DecodesInside, decodeCity, isHead, hasCountry, not_not]
  simp only [Option.bind_eq_bind, Option.bind_some]
  by_cases rejected : country.toNat = 0 ∨ country.toNat > geoCountryLast
  · refine iff_of_true ⟨_, if_pos rejected, ?_⟩ (.inl rejected)
    rintro geoRec decoding ⟨⟩
  · rw [or_iff_right rejected, ← readRecord_iff length]
    simp only [if_neg rejected]
    constructor
    · rintro ⟨outcome, decodes, inside⟩
      obtain ⟨result, reads, returns⟩ := Option.bind_eq_some_iff.mp decodes
      obtain rfl := Option.some.inj returns
      exact ⟨result, reads, inside _ _ rfl⟩
    · rintro ⟨result, reads, inside⟩
      refine ⟨.succeeded result.1 result.2, ?_, ?_⟩
      · rw [reads]
        rfl
      · rintro geoRec decoding ⟨⟩
        exact inside

/-- The decoding stays inside exactly when the country is rejected or the
fields end early enough. -/
theorem decodesInside_iff
    (geo : GeoDb) (recVal : Nat) {stale : Bytes}
    (length : stale.length = geoCityRecordLen) :
    DecodesInside geo.dbtype (loadRecord geo recVal stale) ↔
      ¬ HasCountry (loadRecord geo recVal stale) ∨
        HasFields geo.dbtype (loadRecord geo recVal stale) :=
  decodesInside_of_length geo.dbtype (length_loadRecord geo recVal length)

end

/-- A database with one record, of a country and a text. -/
def oneRecord (text : Bytes) : GeoDb where
  db := 0xe1 :: text
  dbtype := 6
  ctryOffset := 0

def cityText : Bytes :=
  ascii ['C', 'A'] ++ 0 :: (ascii ['L', 'A'] ++ 0 :: (ascii ['9', '0'] ++ 0 ::
    List.replicate 40 1))

/-- All accesses to this record are inside. -/
theorem decodesInside_cityText :
    (List.replicate 50 (0 : UInt8)).length = geoCityRecordLen ∧
      DecodesInside 6 (loadRecord (oneRecord cityText) 0 (List.replicate 50 0)) := by
  refine ⟨List.length_replicate, ?_⟩
  refine (decodesInside_iff (oneRecord cityText) 0 List.length_replicate).mpr (.inr ?_)
  exact
    ⟨0xe1, ascii ['C', 'A'], ascii ['L', 'A'], ascii ['9', '0'],
      List.replicate 40 1, rfl, by decide, by decide, by decide, by decide⟩

def endlessText : Bytes := List.replicate 49 0x61

/-- The copy of the city goes on with a size of minus one. -/
theorem not_decodesInside_endlessText :
    ¬ DecodesInside 6 (loadRecord (oneRecord endlessText) 0 (List.replicate 50 0)) := by
  rintro ⟨outcome, decodes, -⟩
  have outside :
      (decodeCity 6
        (loadRecord (oneRecord endlessText) 0 (List.replicate 50 0))).isNone = true := by
    decide
  rw [decodes] at outside
  cases outside

end Cookbook.ModSecurity.Geo

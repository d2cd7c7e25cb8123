import GooglePerl.Lib.Iso8601
import GooglePerl.Protobuf.Value

/-!
`Protobuf::WKT::Timestamp`: the text of a timestamp.

A timestamp is printed to the second, and what is printed can be sorted as text and read back
(`toIso8601_ordered`).
-/

namespace GooglePerl.Wkt

open GooglePerl.Lib GooglePerl.Protobuf

/-- `google.protobuf.Timestamp` -/
structure Timestamp where
  seconds : ℤ
  nanos : ℤ
  deriving DecidableEq

namespace Timestamp

/-- `to_time_piece` -/
def toTimePiece (ts : Timestamp) : Tm := gmtime ts.seconds

/-- `from_time_piece`: a `Time::Piece` has no fraction of a second. -/
def fromTimePiece (tm : Tm) : Timestamp := ⟨timegm tm, 0⟩

/-- `to_iso8601`: `datetime` prints the year as it is, and all else with two digits. -/
def toIso8601 (ts : Timestamp) : PerlStr :=
  let tm := ts.toTimePiece
  natText tm.year.toNat ++ ps "-" ++ paddedText 2 tm.mon ++ ps "-" ++ paddedText 2 tm.mday ++
    ps "T" ++ paddedText 2 tm.hour ++ ps ":" ++ paddedText 2 tm.min ++ ps ":" ++
    paddedText 2 tm.sec ++ ps "Z"

/-- From the year 1000 to the year 9999 -/
def FourDigits (ts : Timestamp) : Prop :=
  -30610224000 ≤ ts.seconds ∧ ts.seconds < 253402300800

theorem toIso8601_eq {ts : Timestamp} (h : ts.FourDigits) :
    ts.toIso8601 = isoText (gmtime ts.seconds) := by
  have hyear := gmtime_year_of_1000 h.1
  have hpad : paddedText 4 (gmtime ts.seconds).year.toNat = natText (gmtime ts.seconds).year.toNat :=
    paddedText_of_le (w := 3) (by omega)
  simp only [toIso8601, toTimePiece, isoText, hpad, List.append_assoc]
  rfl

/-- The texts of timestamps are in the order of their seconds; those from 1970 on are read back,
and a `Time::Piece` keeps all but the nanoseconds. -/
theorem toIso8601_ordered {a b : Timestamp} (ha : a.FourDigits) (hb : b.FourDigits) :
    (a.toIso8601 < b.toIso8601 ↔ a.seconds < b.seconds) ∧
      (a.toIso8601 = b.toIso8601 ↔ a.seconds = b.seconds) ∧
      (0 ≤ a.seconds → strptime isoFormat a.toIso8601 = some a.seconds) ∧
      fromTimePiece a.toTimePiece = { a with nanos := 0 } := by
  have horder : ∀ {a b : Timestamp}, a.FourDigits → b.FourDigits →
      (a.toIso8601 < b.toIso8601 ↔ a.seconds < b.seconds) := by
    intro a b ha hb
    rw [toIso8601_eq ha, toIso8601_eq hb,
      isoText_lt_iff (gmtime_plain (by have := ha.1; omega) ha.2)
        (gmtime_plain (by have := hb.1; omega) hb.2), gmtime_before_iff]
  refine ⟨horder ha hb, ⟨fun heq => ?_, fun heq => ?_⟩, fun hpos => ?_, ?_⟩
  · -- texts that are equal are not in order either way
    have hab := horder ha hb
    have hba := horder hb ha
    rw [heq] at hab hba
    have hirrefl := List.lt_irrefl b.toIso8601
    rcases lt_trichotomy a.seconds b.seconds with hlt | hsame | hgt
    · exact absurd (hab.mpr hlt) hirrefl
    · exact hsame
    · exact absurd (hba.mpr hgt) hirrefl
  · rw [toIso8601, toIso8601, toTimePiece, toTimePiece, heq]
  · have hyear := gmtime_year_of_1970 hpos
    rw [toIso8601_eq ha, strptime_isoText (gmtime_plain (by omega) ha.2) (by omega), timegm_gmtime]
  · rw [fromTimePiece, toTimePiece, timegm_gmtime]

/-- The last second of February in a leap year, and the one behind it. -/
theorem toIso8601_ordered_leap :
    toIso8601 ⟨1709251199, 5⟩ < toIso8601 ⟨1709251200, 0⟩ :=
  (toIso8601_ordered (a := ⟨1709251199, 5⟩) (b := ⟨1709251200, 0⟩)
    ⟨by decide, by decide⟩ ⟨by decide, by decide⟩).1.mpr (by decide)

end Timestamp

end GooglePerl.Wkt

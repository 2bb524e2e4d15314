import MapAlgebra.Text.Layout

/-! Moments in writing. They are counted in nanoseconds from the start of 1970. -/

namespace MapAlgebra.Text

/-- Year, month and day of a day that is counted from the start of 1970. Years are taken to start in
March, so that the day that not every year has is the last one.
-/
def civilDate (day : Int) : Int × Int × Int :=
  let day := day + 719468
  let era := day.fdiv 146097
  let dayOfEra := day.fmod 146097
  let yearOfEra := (dayOfEra - dayOfEra / 1460 + dayOfEra / 36524 - dayOfEra / 146096) / 365
  let dayOfYear := dayOfEra - (365 * yearOfEra + yearOfEra / 4 - yearOfEra / 100)
  let monthFromMarch := (5 * dayOfYear + 2) / 153
  let dayOfMonth := dayOfYear - (153 * monthFromMarch + 2) / 5 + 1
  let month := if monthFromMarch < 10 then monthFromMarch + 3 else monthFromMarch - 9
  (yearOfEra + era * 400 + (if month ≤ 2 then 1 else 0), month, dayOfMonth)

def moment (nanoseconds : Int) : String :=
  let seconds := nanoseconds.fdiv 1000000000
  let (year, month, day) := civilDate (seconds.fdiv 86400)
  let second := seconds.fmod 86400
  let pad (width : Nat) (n : Int) : String := padLeft '0' width (toString n)
  s!"{pad 4 year}-{pad 2 month}-{pad 2 day} "
    ++ s!"{pad 2 (second / 3600)}:{pad 2 (second / 60 % 60)}:{pad 2 (second % 60)}"

end MapAlgebra.Text

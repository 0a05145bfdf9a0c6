import Zveltio.SqlLiterals
namespace Zveltio.IsoDates
open Calendar
open SqlLiterals (padded isoYear toISOString)

abbrev Text := List Char

-- Date.parse on the texts toISOString writes; another text is not read here.
def fixed (width : Nat) (text : Text) : Option (Nat × Text) :=
  let front := text.take width
  if front.length = width ∧ front.all Char.isDigit then some (Nat.ofDigitChars 10 front 0,text.drop width) else none

def expect (mark : Char) : Text → Option Text
  | [] => none
  | char::rest => if char = mark then some rest else none

def year : Text → Option (Int × Text)
  | '+'::rest => (fixed 6 rest).map fun read => ((read.1 : Int),read.2)
  | '-'::rest => (fixed 6 rest).bind fun read => if read.1 = 0 then none else some (-(read.1 : Int),read.2)
  | text => (fixed 4 text).map fun read => ((read.1 : Int),read.2)

-- A day that is none of its month is refused.
def date (text : Text) : Option (Int × Text) := do
  let (year,text) ← year text
  let (month,text) ← fixed 2 (← expect '-' text)
  let (date,text) ← fixed 2 (← expect '-' text)
  let day := makeDay year (month - 1) date
  if month - 1 < 12 ∧ 1 ≤ month ∧ dateOf day = date then some (day,text) else none

def clock (text : Text) : Option (Int × Text) := do
  let (hour,text) ← fixed 2 text
  let (minute,text) ← fixed 2 (← expect ':' text)
  let (second,text) ← fixed 2 (← expect ':' text)
  let (millisecond,text) ← fixed 3 (← expect '.' text)
  if hour < 24 ∧ minute < 60 ∧ second < 60 then some (makeTime hour minute second millisecond,text) else none

def parse (text : Text) : Option Int := do
  let (day,text) ← date text
  let (time,text) ← clock (← expect 'T' text)
  let rest ← expect 'Z' text
  if rest = [] then timeClip (makeDate day time) else none

theorem padded_length (small : value < 10 ^ width) (some' : 0 < width) : (padded width value).length = width := by
  have short := (Nat.length_toDigits_le_iff (b := 10) (by decide) some').mpr small
  rw [padded,List.length_append,List.length_replicate]
  omega

theorem fixed_padded (small : value < 10 ^ width) (some' : 0 < width) (rest : Text) :
    fixed width (padded width value ++ rest) = some (value,rest) := by
  have size := padded_length small some'
  have front : (padded width value ++ rest).take width = padded width value := List.take_left' size
  have behind : (padded width value ++ rest).drop width = rest := List.drop_left' size
  have decimal : (padded width value).all Char.isDigit = true := by
    rw [padded,List.all_append,Bool.and_eq_true]
    refine ⟨List.all_eq_true.mpr fun char held => ?_,List.all_eq_true.mpr fun char held => ?_⟩
    · rw [List.eq_of_mem_replicate held]
      rfl
    · exact Nat.isDigit_of_mem_toDigits (by decide) (by decide) held
  have number : Nat.ofDigitChars 10 (padded width value) 0 = value := by
    rw [padded,Nat.ofDigitChars_append,Nat.ofDigitChars_replicate_zero,Nat.mul_zero,Nat.ofDigitChars_ten_toDigits]
  unfold fixed
  rw [front,behind,if_pos ⟨size,decimal⟩,number]

theorem expect_mark (mark : Char) (rest : Text) : expect mark (mark::rest) = some rest := if_pos rfl

theorem padded_first (small : value < 10 ^ width) (some' : 0 < width) :
    ∃ char rest, padded width value = char::rest ∧ char.isDigit = true := by
  have size := padded_length small some'
  cases text : padded width value with
  | nil =>
    rw [text] at size
    exact absurd size (Nat.ne_of_lt some')
  | cons char rest =>
    refine ⟨char,rest,rfl,?_⟩
    have held : char ∈ padded width value := by
      rw [text]
      exact List.mem_cons_self ..
    rcases List.mem_append.mp held with zero | digit
    · rw [List.eq_of_mem_replicate zero]
      rfl
    · exact Nat.isDigit_of_mem_toDigits (by decide) (by decide) digit

theorem year_isoYear {value : Int} (low : -1000000 < value) (high : value < 1000000) (rest : Text) :
    year (isoYear value ++ rest) = some (value,rest) := by
  unfold isoYear
  split
  · next short =>
    have small : value.toNat < 10 ^ 4 := by omega
    obtain ⟨char,more,text,digit⟩ := padded_first small (by decide)
    have read := fixed_padded small (by decide) rest
    rw [text] at read ⊢
    rw [List.cons_append] at read ⊢
    rw [year]
    · rw [read,Option.map_some,Int.toNat_of_nonneg short.1]
    · intro rest same
      rw [(List.cons.inj same).1] at digit
      cases digit
    · intro rest same
      rw [(List.cons.inj same).1] at digit
      cases digit
  · next long =>
    have small : value.natAbs < 10 ^ 6 := by omega
    split
    · next below =>
      rw [List.cons_append,year,fixed_padded small (by decide),Option.bind_some,if_neg (by dsimp only; omega)]
      rw [show -(value.natAbs : Int) = value by omega]
    · next above =>
      rw [List.cons_append,year,fixed_padded small (by decide),Option.map_some,show (value.natAbs : Int) = value by omega]

theorem year_bound {time : Int} (valid : Valid time) :
    -1000000 < yearOf (time / msPerDay) ∧ yearOf (time / msPerDay) < 1000000 := by
  obtain ⟨low,high⟩ := valid
  obtain ⟨first,next⟩ := year_exact (time / msPerDay)
  unfold dayFromYear msPerDay at *
  constructor <;> omega

theorem makeDay_back (day : Int) : makeDay (yearOf day) (monthOf day) (dateOf day) = day := by
  have whole := makeDay_on day 0
  simpa using whole

theorem month_bound (day : Int) : monthOf day < 12 := (month_bounds (leap (yearOf day)) _ (dayInYear_bound day)).1

theorem date_read (day : Int) (low : -1000000 < yearOf day) (high : yearOf day < 1000000) (rest : Text) :
    date (isoYear (yearOf day) ++ '-'::(padded 2 (monthOf day + 1) ++ '-'::(padded 2 (dateOf day) ++ rest))) = some (day,rest) := by
  have month := month_bound day
  obtain ⟨first,last⟩ := dateOf_bounds day
  have whole : makeDay (yearOf day) (monthOf day + 1 - 1) (dateOf day) = day := makeDay_back day
  simp only [date,year_isoYear low high,expect_mark,fixed_padded (show monthOf day + 1 < 10 ^ 2 by omega) (by decide),
    fixed_padded (show dateOf day < 10 ^ 2 by omega) (by decide),Option.bind_eq_bind,Option.bind_some,whole]
  rw [if_pos ⟨by omega,by omega,trivial⟩]

theorem clock_read (hours : hour < 24) (minutes : minute < 60) (seconds : second < 60) (thousand : millisecond < 1000) (rest : Text) :
    clock (padded 2 hour ++ ':'::(padded 2 minute ++ ':'::(padded 2 second ++ '.'::(padded 3 millisecond ++ rest)))) =
      some (makeTime hour minute second millisecond,rest) := by
  simp only [clock,expect_mark,fixed_padded (show hour < 10 ^ 2 by omega) (by decide),
    fixed_padded (show minute < 10 ^ 2 by omega) (by decide),fixed_padded (show second < 10 ^ 2 by omega) (by decide),
    fixed_padded (show millisecond < 10 ^ 3 by omega) (by decide),Option.bind_eq_bind,Option.bind_some]
  rw [if_pos ⟨hours,minutes,seconds⟩]

theorem parse_toISOString {time : Int} (valid : Valid time) : parse (toISOString time) = some time := by
  obtain ⟨early,late⟩ := year_bound valid
  obtain ⟨within,same⟩ : ∃ within : Nat, (time % msPerDay).toNat = within := ⟨_,rfl⟩
  have bound : within < 86400000 := by
    have := Int.emod_lt_of_pos time (show 0 < msPerDay by decide)
    unfold msPerDay at *
    omega
  have split : makeDate (time / msPerDay)
      (makeTime (within / 3600000 : Nat) (within / 60000 % 60 : Nat) (within / 1000 % 60 : Nat) (within % 1000 : Nat)) = time := by
    have := Int.emod_nonneg time (show msPerDay ≠ 0 by decide)
    unfold makeDate makeTime msPerDay at *
    omega
  have text : toISOString time = isoYear (yearOf (time / msPerDay)) ++ '-'::(padded 2 (monthOf (time / msPerDay) + 1) ++
      '-'::(padded 2 (dateOf (time / msPerDay)) ++ 'T'::(padded 2 (within / 3600000) ++ ':'::(padded 2 (within / 60000 % 60) ++
        ':'::(padded 2 (within / 1000 % 60) ++ '.'::(padded 3 (within % 1000) ++ ['Z'])))))) := by
    simp only [toISOString,same,List.append_assoc,List.cons_append]
  rw [text]
  simp only [parse,date_read _ early late,expect_mark,clock_read (show within / 3600000 < 24 by omega)
    (show within / 60000 % 60 < 60 by omega) (show within / 1000 % 60 < 60 by omega) (show within % 1000 < 1000 by omega),
    Option.bind_eq_bind,Option.bind_some,if_true,split,timeClip,if_pos valid]

end Zveltio.IsoDates

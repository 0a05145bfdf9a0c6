import Mathlib.Data.Int.Init
namespace Zveltio.Calendar

-- The Gregorian calendar on day numbers, zero the first day of 1970, and dates as JavaScript has them: milliseconds,
-- shown in a local time that is a constant offset from UTC.
def dayFromYear (year : Int) : Int := 365 * (year - 1970) + (year - 1969) / 4 - (year - 1901) / 100 + (year - 1601) / 400

def leap (year : Int) : Bool := year % 4 = 0 && (year % 100 ≠ 0 || year % 400 = 0)

-- The largest year that begins by the day; the mean year gives it up to one.
def yearOf (day : Int) : Int :=
  let near := 1970 + 400 * day / 146097
  if day < dayFromYear near then near - 1 else if dayFromYear (near + 1) ≤ day then near + 1 else near

def monthStart (leap : Bool) (month : Nat) : Nat :=
  ([0,31,59,90,120,151,181,212,243,273,304,334][month]?).getD 365 + if leap && 2 ≤ month then 1 else 0

def monthIn (leap : Bool) (within : Nat) : Nat := ((List.range' 1 11).filter fun month => monthStart leap month ≤ within).length

def dayInYear (day : Int) : Nat := (day - dayFromYear (yearOf day)).toNat

def monthOf (day : Int) : Nat := monthIn (leap (yearOf day)) (dayInYear day)

def dateOf (day : Int) : Nat := dayInYear day + 1 - monthStart (leap (yearOf day)) (monthOf day)

def weekDay (day : Int) : Nat := ((day + 4) % 7).toNat

def makeDay (year : Int) (month : Nat) (date : Int) : Int := dayFromYear year + monthStart (leap year) month + (date - 1)

example : (yearOf 11016,monthOf 11016,dateOf 11016,weekDay 11016) = (2000,1,29,2) := by decide

theorem year_next (year : Int) : dayFromYear (year + 1) = dayFromYear year + 365 + if leap year then 1 else 0 := by
  unfold dayFromYear leap
  split
  · next long =>
    simp only [Bool.and_eq_true,Bool.or_eq_true,decide_eq_true_eq] at long
    omega
  · next short =>
    simp only [Bool.and_eq_true,Bool.or_eq_true,decide_eq_true_eq] at short
    omega

theorem year_exact (day : Int) : dayFromYear (yearOf day) ≤ day ∧ day < dayFromYear (yearOf day + 1) := by
  have low : dayFromYear (1970 + 400 * day / 146097 - 1) ≤ day := by
    unfold dayFromYear
    omega
  have high : day < dayFromYear (1970 + 400 * day / 146097 + 1 + 1) := by
    unfold dayFromYear
    omega
  unfold yearOf
  dsimp only
  split
  · next early => exact ⟨low,by rwa [Int.sub_add_cancel]⟩
  · next begun =>
    split
    · next late => exact ⟨late,high⟩
    · next inside => exact ⟨Int.not_lt.mp begun,Int.not_le.mp inside⟩

theorem dayInYear_exact (day : Int) : (dayInYear day : Int) = day - dayFromYear (yearOf day) := by
  have first := (year_exact day).1
  unfold dayInYear
  omega

theorem dayInYear_bound (day : Int) : dayInYear day < 365 + if leap (yearOf day) then 1 else 0 := by
  have last := (year_exact day).2
  rw [year_next] at last
  have exact_day := dayInYear_exact day
  split
  · next long =>
    rw [if_pos long] at last
    omega
  · next short =>
    rw [if_neg short] at last
    omega

theorem month_bounds (leap : Bool) : ∀ within < 365 + (if leap then 1 else 0), monthIn leap within < 12 ∧
    monthStart leap (monthIn leap within) ≤ within ∧ within < monthStart leap (monthIn leap within) + 31 := by
  cases leap <;> decide +kernel

theorem dateOf_bounds (day : Int) : 1 ≤ dateOf day ∧ dateOf day ≤ 31 := by
  have bounds := (month_bounds (leap (yearOf day)) _ (dayInYear_bound day)).2
  unfold dateOf monthOf
  omega

theorem weekDay_bound (day : Int) : weekDay day ≤ 6 := by
  unfold weekDay
  omega

theorem makeDay_on (day : Int) (count : Int) : makeDay (yearOf day) (monthOf day) (dateOf day + count) = day + count := by
  have bounds := (month_bounds (leap (yearOf day)) _ (dayInYear_bound day)).2
  have exact_day := dayInYear_exact day
  unfold makeDay dateOf monthOf at *
  omega

def msPerDay : Int := 86400000

-- A date that is out of range is none, JavaScript's NaN.
def Valid (time : Int) : Prop := -8640000000000000 ≤ time ∧ time ≤ 8640000000000000

instance (time : Int) : Decidable (Valid time) := by unfold Valid; infer_instance

def timeClip (time : Int) : Option Int := if Valid time then some time else none

def makeTime (hour minute second millisecond : Int) : Int := hour * 3600000 + minute * 60000 + second * 1000 + millisecond

def makeDate (day time : Int) : Int := day * msPerDay + time

section
variable (offset : Int)

def localTime (time : Int) : Int := time + offset

def dayOf (time : Int) : Int := localTime offset time / msPerDay

def getMonth (time : Int) : Nat := monthOf (dayOf offset time)

def getDate (time : Int) : Nat := dateOf (dayOf offset time)

def getDay (time : Int) : Nat := weekDay (dayOf offset time)

def getHours (time : Int) : Nat := (localTime offset time / 3600000 % 24).toNat

def getMinutes (time : Int) : Nat := (localTime offset time / 60000 % 60).toNat

def getSeconds (time : Int) : Nat := (localTime offset time / 1000 % 60).toNat

def getMilliseconds (time : Int) : Nat := (localTime offset time % 1000).toNat

def fromLocal (time : Int) : Option Int := timeClip (time - offset)

def setSeconds (time : Int) (second millisecond : Int) : Option Int :=
  fromLocal offset (makeDate (dayOf offset time) (makeTime (getHours offset time) (getMinutes offset time) second millisecond))

def setMinutes (time : Int) (minute : Int) : Option Int :=
  fromLocal offset (makeDate (dayOf offset time) (makeTime (getHours offset time) minute (getSeconds offset time) (getMilliseconds offset time)))

def setHours (time : Int) (hour minute second millisecond : Int) : Option Int :=
  fromLocal offset (makeDate (dayOf offset time) (makeTime hour minute second millisecond))

def setDate (time : Int) (date : Int) : Option Int :=
  fromLocal offset (makeDate (makeDay (yearOf (dayOf offset time)) (getMonth offset time) date) (localTime offset time % msPerDay))

end

section
variable {offset : Int}

theorem local_parts (time : Int) : localTime offset time =
    dayOf offset time * msPerDay + getHours offset time * 3600000 + getMinutes offset time * 60000 + localTime offset time % 60000 := by
  unfold dayOf getHours getMinutes msPerDay
  omega

theorem setSeconds_floor (time : Int) : setSeconds offset time 0 0 = timeClip (time - localTime offset time % 60000) := by
  have parts := @local_parts offset time
  unfold setSeconds fromLocal makeDate makeTime
  congr 1
  unfold localTime at *
  omega

theorem setMinutes_next (whole : localTime offset time % 60000 = 0) :
    setMinutes offset time (getMinutes offset time + 1) = timeClip (time + 60000) := by
  have parts := @local_parts offset time
  have second : getSeconds offset time = 0 := by
    unfold getSeconds
    omega
  have millisecond : getMilliseconds offset time = 0 := by
    unfold getMilliseconds
    omega
  unfold setMinutes fromLocal makeDate makeTime
  rw [second,millisecond]
  congr 1
  unfold localTime at *
  omega

theorem setDate_on (time : Int) (count : Int) : setDate offset time (getDate offset time + count) = timeClip (time + count * msPerDay) := by
  unfold setDate fromLocal makeDate getDate getMonth
  rw [makeDay_on]
  congr 1
  unfold dayOf localTime msPerDay
  omega

theorem dayOf_on (time : Int) (count : Int) : dayOf offset (time + count * msPerDay) = dayOf offset time + count := by
  unfold dayOf localTime msPerDay
  omega

theorem clock_parts (hour : h < 24) (minute : m < 60) (shown : localTime offset time = day * msPerDay + makeTime (h : Nat) (m : Nat) 0 0) :
    dayOf offset time = day ∧ getHours offset time = h ∧ getMinutes offset time = m ∧ localTime offset time % 60000 = 0 := by
  unfold dayOf getHours getMinutes
  unfold makeTime msPerDay at *
  omega

end

end Zveltio.Calendar

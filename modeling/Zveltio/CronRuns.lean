import Zveltio.Calendar
import Zveltio.Cron
import Zveltio.OrderedSearch
namespace Zveltio.CronRuns

open Calendar Cron OrderedSearch

section
variable (offset : Int)

def dayMatches (f : CronFields) (d : Int) : Bool :=
  if getMonth offset d + 1 ∉ f.month then false
  else
    let domHit := getDate offset d ∈ f.dom
    let dowHit := getDay offset d ∈ f.dow
    if f.domRestricted && f.dowRestricted then domHit || dowHit
    else if f.domRestricted then domHit
    else if f.dowRestricted then dowHit
    else true

def sorted (set : List Nat) : List Nat := set.insertionSort (· ≤ ·)

-- The rounds of the hours and minutes on the day the probe is on.
def hitOn (f : CronFields) (since cursor : Int) (day : Nat) (probe : Int) : Option Int :=
  let startHour := if day = 0 then getHours offset cursor else 0
  (sorted f.hour).findSome? fun h =>
    if h < startHour then none
    else
      let startMinute := if day = 0 ∧ h = getHours offset cursor then getMinutes offset cursor else 0
      (sorted f.minute).findSome? fun m =>
        if m < startMinute then none else (setHours offset probe h m 0 0).filter (since < ·)

def atNextMinute (since : Int) : Option Int :=
  (setSeconds offset since 0 0).bind fun cursor => setMinutes offset cursor (getMinutes offset cursor + 1)

-- A probe that is not a date matches no month, and a hit that is none is not after since.
def nextCronRun (expr : String) (since : Int) : Option Int :=
  (parseCron expr).bind fun f =>
    (atNextMinute offset since).bind fun cursor =>
      (List.range (366 * 4)).findSome? fun (day : Nat) =>
        (setDate offset cursor (getDate offset cursor + day)).bind fun probe =>
          if !dayMatches offset f probe then none else hitOn offset f since cursor day probe

-- A minute the fields name, the two day fields either way where both are restricted.
def Fires (f : CronFields) (time : Int) : Prop :=
  localTime offset time % 60000 = 0 ∧ getMinutes offset time ∈ f.minute ∧ getHours offset time ∈ f.hour ∧ getMonth offset time + 1 ∈ f.month ∧
    if f.domRestricted ∧ f.dowRestricted then getDate offset time ∈ f.dom ∨ getDay offset time ∈ f.dow
    else getDate offset time ∈ f.dom ∧ getDay offset time ∈ f.dow

def Due (f : CronFields) (since time : Int) : Prop := Valid time ∧ since < time ∧ Fires offset f time

def minuteOf (since : Int) : Int := since - localTime offset since % 60000

def nextMinute (since : Int) : Int := minuteOf offset since + 60000

-- The 1464 days from the next whole minute's, and those of them the search sees: that time of day is a date there.
def Window (since time : Int) (day : Nat) : Prop := day < 1464 ∧ dayOf offset time = dayOf offset (nextMinute offset since) + day

def Searched (since time : Int) : Prop :=
  Valid (minuteOf offset since) ∧ Valid (nextMinute offset since) ∧
    ∃ day, Window offset since time day ∧ Valid (nextMinute offset since + day * msPerDay)

def Runs (f : CronFields) (since : Int) (run : Option Int) : Prop :=
  (∀ time, run = some time → IsLeast {time | Due offset f since time} time) ∧
    (run = none ↔ ¬ ∃ time, Due offset f since time ∧ Searched offset since time)

end

-- What the search relies on in the fields.
structure Parsed (f : CronFields) : Prop where
  minutes : ∀ m ∈ f.minute, m < 60
  hours : ∀ h ∈ f.hour, h < 24
  doms : f.domRestricted = false → ∀ date, 1 ≤ date → date ≤ 31 → date ∈ f.dom
  dows : f.dowRestricted = false → ∀ day, day ≤ 6 → day ∈ f.dow

theorem means_below {min max value : Nat} {set : List Nat} (ordered : min ≤ max) (valid : FieldValid min max items) (means : Means min max set items) (member : value ∈ set) : value ≤ max := by
  obtain ⟨item,listed,_,_,below⟩ := (means value).mp member
  exact below.trans (item_inside ordered (valid.2 item listed)).2.1

theorem parsed (accepted : parseCron expr = some f) : Parsed f := by
  obtain ⟨schedule,valid,texts⟩ := parseCron_read accepted
  obtain ⟨fields,found,minute,hour,_⟩ := parseCron_reads valid texts
  obtain rfl : fields = f := Option.some.inj (found.symm.trans accepted)
  refine ⟨fun m member => ?_,fun h member => ?_,?_,?_⟩
  · exact Nat.lt_succ_of_le (means_below (by decide) valid.1 minute member)
  · exact Nat.lt_succ_of_le (means_below (by decide) valid.2.1 hour member)
  all_goals
    unfold parseCron at accepted
    split at accepted
    · split at accepted
      · next doms _ dows _ _ three _ five =>
        cases accepted
        intro free
        have star : _ = ['*'] := of_not_not (of_decide_eq_false free)
        first
          | rw [star,show parseField 1 31 ['*'] = some (List.range' 1 31) by decide +kernel] at three
            cases three
            intro date first last
            exact List.mem_range'_1.mpr ⟨first,by omega⟩
          | rw [star,show parseField 0 6 ['*'] = some (List.range' 0 7) by decide +kernel] at five
            cases five
            intro day last
            exact List.mem_range'_1.mpr ⟨by omega,by omega⟩
      · cases accepted
    · cases accepted

section
variable {offset : Int}

theorem dayMatches_exact (fields : Parsed f) : dayMatches offset f d = true ↔ getMonth offset d + 1 ∈ f.month ∧
    if f.domRestricted ∧ f.dowRestricted then getDate offset d ∈ f.dom ∨ getDay offset d ∈ f.dow
    else getDate offset d ∈ f.dom ∧ getDay offset d ∈ f.dow := by
  have date := dateOf_bounds (dayOf offset d)
  have free_dom (free : f.domRestricted = false) : getDate offset d ∈ f.dom := fields.doms free _ date.1 date.2
  have free_dow (free : f.dowRestricted = false) : getDay offset d ∈ f.dow := fields.dows free _ (weekDay_bound _)
  unfold dayMatches
  cases dom : f.domRestricted <;> cases dow : f.dowRestricted <;> simp_all

theorem atNextMinute_exact (since : Int) : atNextMinute offset since =
    if Valid (minuteOf offset since) ∧ Valid (nextMinute offset since) then some (nextMinute offset since) else none := by
  have whole : localTime offset (minuteOf offset since) % 60000 = 0 := by
    unfold minuteOf localTime
    omega
  rw [atNextMinute,setSeconds_floor]
  by_cases first : Valid (minuteOf offset since)
  · rw [show timeClip (since - localTime offset since % 60000) = some (minuteOf offset since) from if_pos first,Option.bind_some,setMinutes_next whole]
    by_cases second : Valid (nextMinute offset since)
    · rw [if_pos ⟨first,second⟩]
      exact if_pos second
    · rw [if_neg fun both => second both.2]
      exact if_neg second
  · rw [show timeClip (since - localTime offset since % 60000) = none from if_neg first,if_neg fun both => first both.1]
    rfl

theorem shown_hit (hit : setHours offset probe h m 0 0 = some time) :
    localTime offset time = dayOf offset probe * msPerDay + makeTime h m 0 0 ∧ Valid time := by
  unfold setHours fromLocal timeClip makeDate at hit
  split at hit
  · next valid =>
    cases hit
    exact ⟨by unfold localTime; omega,valid⟩
  · cases hit

theorem hit_shown (valid : Valid time) (shown : localTime offset time = dayOf offset probe * msPerDay + makeTime h m 0 0) :
    setHours offset probe h m 0 0 = some time := by
  have same : makeDate (dayOf offset probe) (makeTime h m 0 0) - offset = time := by
    unfold makeDate
    unfold localTime at shown
    omega
  unfold setHours fromLocal timeClip
  rw [same,if_pos valid]

def HourHits (offset : Int) (f : CronFields) (since probe : Int) (startMinute h : Nat) : Set Int :=
  {time | ∃ m ∈ f.minute, ¬ m < startMinute ∧ setHours offset probe h m 0 0 = some time ∧ since < time}

def DayHits (offset : Int) (f : CronFields) (since cursor : Int) (day : Nat) (probe : Int) : Set Int :=
  {time | ∃ h ∈ f.hour, ¬ h < (if day = 0 then getHours offset cursor else 0) ∧
    time ∈ HourHits offset f since probe (if day = 0 ∧ h = getHours offset cursor then getMinutes offset cursor else 0) h}

theorem hour_finds (f : CronFields) (since probe : Int) (startMinute h : Nat) :
    Finds ((sorted f.minute).findSome? fun m => if m < startMinute then none else (setHours offset probe h m 0 0).filter (since < ·))
      (HourHits offset f since probe startMinute h) := by
  refine (finds_sorted (fun m _ => finds_skip (finds_some _ _)) ?_).congr fun time => by simp [HourHits]
  rintro former _ latter _ before early ⟨_,first,_⟩ late ⟨_,second,_⟩
  have earlier := (shown_hit first).1
  have later := (shown_hit second).1
  unfold localTime makeTime at earlier later
  omega

theorem day_finds (fields : Parsed f) (since cursor : Int) (day : Nat) (probe : Int) :
    Finds (hitOn offset f since cursor day probe) (DayHits offset f since cursor day probe) := by
  refine (finds_sorted (fun h _ => finds_skip (hour_finds f since probe _ h)) ?_).congr fun time => Iff.rfl
  rintro former _ latter _ before early ⟨_,m,listed,_,first,_⟩ late ⟨_,_,_,_,second,_⟩
  have minute := fields.minutes m listed
  have earlier := (shown_hit first).1
  have later := (shown_hit second).1
  unfold localTime makeTime at earlier later
  omega

theorem probe_day {day : Nat} (probed : setDate offset cursor (getDate offset cursor + day) = some probe) :
    dayOf offset probe = dayOf offset cursor + day ∧ Valid (cursor + day * msPerDay) ∧ cursor + day * msPerDay = probe := by
  rw [setDate_on] at probed
  unfold timeClip at probed
  split at probed
  · next valid =>
    cases probed
    exact ⟨dayOf_on cursor day,valid,rfl⟩
  · cases probed

theorem days_finds (fields : Parsed f) (since cursor : Int) :
    Finds ((List.range (366 * 4)).findSome? fun (day : Nat) => (setDate offset cursor (getDate offset cursor + day)).bind fun probe =>
        if !dayMatches offset f probe then none else hitOn offset f since cursor day probe)
      {time | ∃ day : Nat, day < 1464 ∧ Valid (cursor + day * msPerDay) ∧ dayMatches offset f (cursor + day * msPerDay) = true ∧
        time ∈ DayHits offset f since cursor day (cursor + day * msPerDay)} := by
  refine (finds_first (fun day _ => finds_bind fun probe _ => finds_skip (day_finds fields since cursor day probe)) ?_).congr fun time => ?_
  · refine List.pairwise_lt_range.imp fun before => .inr ?_
    rintro early ⟨earlier,probed,_,h,hour,_,m,minute,_,first,_⟩ late ⟨later,reprobed,_,_,_,_,_,_,_,second,_⟩
    have minute := fields.minutes m minute
    have hour := fields.hours h hour
    have earlier := probe_day probed
    have later := probe_day reprobed
    have first := (shown_hit first).1
    have second := (shown_hit second).1
    rw [earlier.1] at first
    rw [later.1] at second
    unfold localTime makeTime msPerDay at first second
    omega
  · simp only [Set.mem_ofPred_eq,List.mem_range,Bool.not_eq_true]
    refine exists_congr fun day => and_congr_right fun _ => ?_
    constructor
    · rintro ⟨probe,probed,matched,inside⟩
      obtain ⟨_,valid,rfl⟩ := probe_day probed
      exact ⟨valid,by simpa using matched,inside⟩
    · rintro ⟨valid,matched,inside⟩
      exact ⟨_,by rw [setDate_on]; exact if_pos valid,by simpa using matched,inside⟩

theorem next_before (whole : localTime offset time % 60000 = 0) (later : since < time) :
    localTime offset (nextMinute offset since) ≤ localTime offset time := by
  unfold nextMinute minuteOf
  unfold localTime at *
  omega

theorem hits_due (fields : Parsed f) (valid : Valid (minuteOf offset since) ∧ Valid (nextMinute offset since)) :
    (∃ day : Nat, day < 1464 ∧ Valid (nextMinute offset since + day * msPerDay) ∧ dayMatches offset f (nextMinute offset since + day * msPerDay) = true ∧
      time ∈ DayHits offset f since (nextMinute offset since) day (nextMinute offset since + day * msPerDay)) ↔
    Due offset f since time ∧ Searched offset since time := by
  constructor
  · rintro ⟨day,inside,probed,matched,h,hour,_,m,minute,_,hit,later⟩
    obtain ⟨shown,representable⟩ := shown_hit hit
    rw [dayOf_on] at shown
    obtain ⟨same_day,same_hour,same_minute,whole⟩ := clock_parts (fields.hours h hour) (fields.minutes m minute) shown
    obtain ⟨month,days⟩ := (dayMatches_exact fields).mp matched
    refine ⟨⟨representable,later,whole,by rwa [same_minute],by rwa [same_hour],?_,?_⟩,valid.1,valid.2,day,⟨inside,same_day⟩,probed⟩
    · unfold getMonth at *
      rwa [dayOf_on,← same_day] at month
    · unfold getDate getDay at *
      rwa [dayOf_on,← same_day] at days
  · rintro ⟨⟨representable,later,whole,minute,hour,month,days⟩,_,_,day,⟨inside,same_day⟩,probed⟩
    have shown := @local_parts offset time
    have cursor := @local_parts offset (nextMinute offset since)
    have not_before := next_before whole later
    have minute_bound := fields.minutes _ minute
    have hour_bound := fields.hours _ hour
    have before_minute : getMinutes offset (nextMinute offset since) < 60 ∧ getHours offset (nextMinute offset since) < 24 := by
      unfold getMinutes getHours
      omega
    unfold msPerDay at shown cursor
    refine ⟨day,inside,probed,(dayMatches_exact fields).mpr ⟨?_,?_⟩,_,hour,?_,_,minute,?_,hit_shown representable ?_,later⟩
    · unfold getMonth at *
      rwa [dayOf_on,← same_day]
    · unfold getDate getDay at *
      rwa [dayOf_on,← same_day]
    · split
      · next first => omega
      · exact Nat.not_lt_zero _
    · split
      · next first => omega
      · exact Nat.not_lt_zero _
    · rw [dayOf_on,← same_day,shown,whole]
      unfold makeTime msPerDay
      omega

theorem day_searched (whole : localTime offset time % 60000 = 0) (later : since < time) (before : time ≤ other) (searched : Searched offset since other) :
    Searched offset since time := by
  obtain ⟨first,next,day,⟨inside,same_day⟩,probed⟩ := searched
  have not_before := next_before whole later
  have up_to : dayOf offset time ≤ dayOf offset other := by
    unfold dayOf localTime msPerDay
    omega
  have since_next : dayOf offset (nextMinute offset since) ≤ dayOf offset time := by
    unfold dayOf msPerDay
    omega
  refine ⟨first,next,(dayOf offset time - dayOf offset (nextMinute offset since)).toNat,⟨by omega,by omega⟩,?_⟩
  unfold Valid msPerDay at *
  omega

theorem next_exact (accepted : parseCron expr = some f) : Runs offset f since (nextCronRun offset expr since) := by
  have fields := parsed accepted
  rw [nextCronRun,accepted,Option.bind_some,atNextMinute_exact]
  by_cases valid : Valid (minuteOf offset since) ∧ Valid (nextMinute offset since)
  · rw [if_pos valid,Option.bind_some]
    obtain ⟨some_found,none_found⟩ := (days_finds fields since (nextMinute offset since)).congr fun time => hits_due fields valid
    constructor
    · intro time found
      obtain ⟨⟨due,searched⟩,least⟩ := some_found time found
      refine ⟨due,fun other also_due => ?_⟩
      by_contra earlier
      have before : other ≤ time := Int.le_of_lt (Int.not_le.mp earlier)
      exact earlier (least ⟨also_due,day_searched also_due.2.2.1 also_due.2.1 before searched⟩)
    · constructor
      · rintro nothing ⟨time,due⟩
        have empty := none_found nothing
        exact absurd (show time ∈ {time | Due offset f since time ∧ Searched offset since time} from due) (by rw [empty]; exact Set.notMem_empty time)
      · intro none_due
        rw [Option.eq_none_iff_forall_not_mem]
        intro time found
        exact none_due ⟨time,(some_found time found).1⟩
  · rw [if_neg valid]
    refine ⟨by simp,fun _ => ?_,fun _ => rfl⟩
    rintro ⟨time,_,first,next,_⟩
    exact valid ⟨first,next⟩

theorem next_exact_three : nextCronRun 3600000 "0 3 * * *" 0 = some 7200000 ∧
    ∃ f, parseCron "0 3 * * *" = some f ∧ Runs 3600000 f 0 (nextCronRun 3600000 "0 3 * * *" 0) := by
  obtain ⟨f,accepted⟩ := Option.isSome_iff_exists.mp (show (parseCron "0 3 * * *").isSome = true by decide +kernel)
  exact ⟨by decide +kernel,f,accepted,next_exact accepted⟩

-- The last instant there is, a midnight, is not found from ten in the morning before: at ten past its day there is no date.
theorem last_midnight_missed : ∃ f, parseCron "0 0 13 9 *" = some f ∧
    ¬ (nextCronRun 0 "0 0 13 9 *" 8639999949600000 = none ↔ ¬ ∃ time day, Due 0 f 8639999949600000 time ∧ Window 0 8639999949600000 time day) := by
  refine ⟨⟨[0],[0],[13],[9],List.range' 0 7,true,false⟩,by decide +kernel,fun same => ?_⟩
  refine same.mp (by decide +kernel) ⟨8640000000000000,1,?_,?_⟩
  · unfold Due Fires
    decide +kernel
  · unfold Window
    decide +kernel

end

end Zveltio.CronRuns

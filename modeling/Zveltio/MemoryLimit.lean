import Mathlib.Data.List.Count
import Mathlib.Data.List.Pairwise
import Mathlib.Data.List.Chain
import Mathlib.Logic.Function.Basic
namespace Zveltio.MemoryLimit

structure RateLimitEntry where
  count : Nat
  windowStart : Int
  windowMs : Nat
  deriving DecidableEq

structure State (κ : Type) where
  memoryStore : κ → Option RateLimitEntry
  lastCleanup : Int

def CLEANUP_INTERVAL : Int := 60000

structure Call (κ : Type) where
  key : κ
  now : Int
  windowMs : Nat
  max : Nat
  countRefused : Bool

def secondsUntil (freesAt now : Int) : Int := Max.max 1 ((freesAt - now + 999) / 1000)

section
variable {κ : Type} [DecidableEq κ]

def cleanup (state : State κ) (now : Int) : State κ :=
  if now - state.lastCleanup > CLEANUP_INTERVAL then
    ⟨fun key => (state.memoryStore key).filter fun entry => !(entry.windowStart + entry.windowMs < now),now⟩
  else state

def State.set (state : State κ) (key : κ) (entry : RateLimitEntry) : State κ :=
  {state with memoryStore := Function.update state.memoryStore key (some entry)}

-- The state after the call, and the wait it is told: 0 where it is admitted.
@[grind] def memoryRateLimit (state : State κ) (call : Call κ) : State κ × Int :=
  let windowStart := call.now - call.windowMs
  let state := cleanup state call.now
  match state.memoryStore call.key with
  | none => (state.set call.key ⟨1,call.now,call.windowMs⟩,0)
  | some entry =>
    if entry.windowStart < windowStart then (state.set call.key ⟨1,call.now,call.windowMs⟩,0)
    else
      let wait := secondsUntil (entry.windowStart + call.windowMs) call.now
      if !call.countRefused && call.max ≤ entry.count then (state,wait)
      else
        let count := entry.count + 1
        (state.set call.key {entry with count := count},if count ≤ call.max then 0 else wait)

@[grind] def admittedFrom (key : κ) (state : State κ) : List (Call κ) → List Int
  | [] => []
  | call::rest =>
    let answer := memoryRateLimit state call
    (if call.key = key ∧ answer.2 = 0 then [call.now] else []) ++ admittedFrom key answer.1 rest

def times (key : κ) (calls : List (Call κ)) : List Int := (calls.filter (·.key = key)).map Call.now

end

def within (windowMs : Nat) (start : Int) (calls : List Int) : Nat := calls.countP fun now => start ≤ now ∧ now < start + windowMs

def Bounded (windowMs max : Nat) (calls : List Int) : Prop := ∀ start, within windowMs start calls ≤ max

def recent (windowMs : Nat) (now : Int) (calls : List Int) : Nat := calls.countP fun earlier => now < earlier + windowMs

-- With what was seen before it, no call is one too many among the recent ones.
@[grind] def Spaced (windowMs max : Nat) (seen : List Int) : List Int → Prop
  | [] => True
  | now::rest => recent windowMs now (seen ++ [now]) ≤ max ∧ Spaced windowMs max (seen ++ [now]) rest

-- The fixed windows the calls fall into: one opens at the first call later than windowMs after the start of the one before.
@[grind] def windowsFrom (windowMs : Nat) (start : Int) (window : List Int) : List Int → List (List Int)
  | [] => [window]
  | now::rest => if start + windowMs < now then window::windowsFrom windowMs now [now] rest else windowsFrom windowMs start (window ++ [now]) rest

def windows (windowMs : Nat) : List Int → List (List Int)
  | [] => []
  | now::rest => windowsFrom windowMs now [now] rest

-- The first max calls of two windows on either side of a reset.
def Fits (windowMs max : Nat) (former next : List Int) : Prop := Spaced windowMs max (former.take max) (next.take max)

instance spacedDecidable (windowMs max : Nat) (seen calls : List Int) : Decidable (Spaced windowMs max seen calls) :=
  match calls with
  | [] => .isTrue trivial
  | now::rest => @instDecidableAnd _ _ _ (spacedDecidable windowMs max (seen ++ [now]) rest)

section
variable {windowMs max : Nat}

theorem spaced_append (seen first second : List Int) :
    Spaced windowMs max seen (first ++ second) ↔ Spaced windowMs max seen first ∧ Spaced windowMs max (seen ++ first) second := by
  induction first generalizing seen with
  | nil => simp [Spaced]
  | cons now rest ih =>
    have later := ih (seen ++ [now])
    simp only [List.append_assoc,List.cons_append,List.nil_append] at later
    simp only [List.cons_append,Spaced,later,and_assoc]

theorem spaced_past {past : List Int} (old : ∀ earlier ∈ past, ∀ now ∈ calls, earlier + windowMs ≤ now) (seen : List Int) :
    Spaced windowMs max (past ++ seen) calls ↔ Spaced windowMs max seen calls := by
  induction calls generalizing seen with
  | nil => exact Iff.rfl
  | cons now rest ih =>
    have none_recent : recent windowMs now past = 0 := by
      refine List.countP_eq_zero.mpr fun earlier member => ?_
      have := old earlier member now (List.mem_cons_self ..)
      simp only [decide_eq_true_eq]
      omega
    have later := ih (fun earlier member next there => old earlier member next (List.mem_cons_of_mem _ there)) (seen ++ [now])
    rw [← List.append_assoc] at later
    have same : recent windowMs now (past ++ seen ++ [now]) = recent windowMs now (seen ++ [now]) := by
      rw [List.append_assoc,recent,List.countP_append]
      unfold recent at none_recent
      rw [none_recent,Nat.zero_add]
      rfl
    rw [Spaced,Spaced,same,later]

theorem spaced_bounded {seen calls : List Int} (sorted : (seen ++ calls).Pairwise (· ≤ ·)) (before : Bounded windowMs max seen) :
    Spaced windowMs max seen calls ↔ Bounded windowMs max (seen ++ calls) := by
  induction calls generalizing seen with
  | nil => simpa [Spaced] using before
  | cons now rest ih =>
    have early : ∀ call ∈ seen ++ [now], call ≤ now := by
      intro call member
      rcases List.mem_append.mp member with old | own
      · exact (List.pairwise_append.mp sorted).2.2 call old now (List.mem_cons_self ..)
      · exact Int.le_of_eq (List.mem_singleton.mp own)
    have sorted_later : (seen ++ [now] ++ rest).Pairwise (· ≤ ·) := by simpa using sorted
    have step : recent windowMs now (seen ++ [now]) ≤ max → Bounded windowMs max (seen ++ [now]) := by
      intro fewer start
      by_cases inside : start ≤ now ∧ now < start + windowMs
      · refine Nat.le_trans (List.countP_mono_left fun call _ held => ?_) fewer
        simp only [decide_eq_true_eq] at held ⊢
        omega
      · have same : within windowMs start (seen ++ [now]) = within windowMs start seen := by
          rw [within,List.countP_append,List.countP_singleton,if_neg (by simpa using inside)]
          rfl
        rw [same]
        exact before start
    rw [show seen ++ now::rest = seen ++ [now] ++ rest by simp]
    constructor
    · rintro ⟨fewer,later⟩
      exact (ih sorted_later (step fewer)).mp later
    · intro bounded
      have fewer : recent windowMs now (seen ++ [now]) ≤ max := by
        refine Nat.le_trans ?_ (bounded (now - windowMs + 1))
        rw [within,List.countP_append]
        refine Nat.le_trans (List.countP_mono_left fun call member held => ?_) (Nat.le_add_right _ _)
        have := early call member
        simp only [decide_eq_true_eq] at held ⊢
        omega
      exact ⟨fewer,(ih sorted_later (step fewer)).mpr bounded⟩

theorem spaced_few (few : (seen ++ calls).length ≤ max) : Spaced windowMs max seen calls := by
  induction calls generalizing seen with
  | nil => trivial
  | cons now rest ih =>
    refine ⟨?_,ih (by simpa using few)⟩
    refine Nat.le_trans List.countP_le_length ?_
    simp only [List.length_append,List.length_cons,List.length_nil] at few ⊢
    omega

-- No window's calls are recent to those of the next but one.
def Separate (windowMs : Nat) : List (List Int) → Prop
  | former::next::rest =>
    (∀ earlier ∈ former, ∀ window ∈ rest, ∀ now ∈ window, earlier + windowMs ≤ now) ∧ Separate windowMs (next::rest)
  | _ => True

theorem windowsFrom_cons (windowMs : Nat) (start : Int) (window calls : List Int) :
    ∃ first rest, windowsFrom windowMs start window calls = first::rest := by
  induction calls generalizing start window with
  | nil => exact ⟨window,[],rfl⟩
  | cons now calls ih =>
    unfold windowsFrom
    split
    · exact ⟨_,_,rfl⟩
    · exact ih start _

theorem windowsFrom_flatten (windowMs : Nat) (start : Int) (window calls : List Int) : (windowsFrom windowMs start window calls).flatten = window ++ calls := by
  induction calls generalizing start window with
  | nil => simp [windowsFrom]
  | cons now calls ih =>
    unfold windowsFrom
    split
    · rw [List.flatten_cons,ih]
      rfl
    · rw [ih]
      simp

theorem windowsFrom_later (windowMs : Nat) (start : Int) (window : List Int) (sorted : calls.Pairwise (· ≤ ·)) :
    ∀ later ∈ (windowsFrom windowMs start window calls).tail, ∀ now ∈ later, start + windowMs < now := by
  induction calls generalizing window with
  | nil => simp [windowsFrom]
  | cons now calls ih =>
    obtain ⟨first,rest⟩ := List.pairwise_cons.mp sorted
    unfold windowsFrom
    split
    · rename_i reset
      intro later member call inside
      have joined : call ∈ (windowsFrom windowMs now [now] calls).flatten := List.mem_flatten_of_mem member inside
      rw [windowsFrom_flatten] at joined
      rcases List.mem_cons.mp joined with rfl | after
      · exact reset
      · exact Int.lt_of_lt_of_le reset (first call after)
    · exact ih _ rest

theorem windowsFrom_separate (windowMs : Nat) (start : Int) (window : List Int) (sorted : calls.Pairwise (· ≤ ·)) (held : ∀ now ∈ window, now ≤ start + windowMs) :
    Separate windowMs (windowsFrom windowMs start window calls) := by
  induction calls generalizing start window with
  | nil => trivial
  | cons now calls ih =>
    obtain ⟨first,rest⟩ := List.pairwise_cons.mp sorted
    unfold windowsFrom
    split
    · rename_i reset
      have later := windowsFrom_later windowMs now [now] rest
      have inner := ih now [now] rest (by
        intro call own
        rw [List.mem_singleton.mp own]
        omega)
      obtain ⟨next,more,shape⟩ := windowsFrom_cons windowMs now [now] calls
      rw [shape] at later inner ⊢
      refine ⟨fun earlier member one there call inside => ?_,inner⟩
      have := held earlier member
      have := later one there call inside
      omega
    · refine ih start _ rest fun call member => ?_
      rcases List.mem_append.mp member with old | own
      · exact held call old
      · rw [List.mem_singleton.mp own]
        omega

theorem spaced_chain {past : List Int} (old : ∀ earlier ∈ past, ∀ window ∈ rest, ∀ now ∈ window, earlier + windowMs ≤ now)
    (separate : Separate windowMs (former::rest)) :
    Spaced windowMs max (past ++ former.take max) (rest.flatMap (·.take max)) ↔ (former::rest).IsChain (Fits windowMs max) := by
  induction rest generalizing past former with
  | nil => simp [Spaced]
  | cons next rest ih =>
    have here : ∀ earlier ∈ past, ∀ now ∈ next.take max, earlier + windowMs ≤ now :=
      fun earlier member now inside => old earlier member next (List.mem_cons_self ..) now (List.mem_of_mem_take inside)
    have older : ∀ earlier ∈ past ++ former.take max, ∀ window ∈ rest, ∀ now ∈ window, earlier + windowMs ≤ now := by
      intro earlier member window there
      rcases List.mem_append.mp member with before | own
      · exact old earlier before window (List.mem_cons_of_mem _ there)
      · exact separate.1 earlier (List.mem_of_mem_take own) window there
    rw [List.flatMap_cons,spaced_append,spaced_past here,ih older separate.2,List.isChain_cons_cons]
    rfl

-- An interval that meets a window lies before the next window but one.
theorem separate_double {windows : List (List Int)} (separate : Separate windowMs windows) (start : Int) : within windowMs start (windows.flatMap (·.take max)) ≤ 2 * max := by
  induction windows with
  | nil => exact Nat.zero_le _
  | cons former rest ih =>
    have few (window : List Int) : within windowMs start (window.take max) ≤ max := Nat.le_trans List.countP_le_length (List.length_take_le ..)
    have joined (window : List Int) (more : List Int) : within windowMs start (window ++ more) = within windowMs start window + within windowMs start more :=
      List.countP_append
    cases rest with
    | nil =>
      have own := few former
      rw [List.flatMap_cons,joined]
      exact Nat.le_trans (Nat.add_le_add_right own _) (by rw [Nat.two_mul]; exact Nat.add_le_add_left (Nat.zero_le _) _)
    | cons next rest =>
      rw [List.flatMap_cons,joined]
      by_cases met : within windowMs start (former.take max) = 0
      · rw [met,Nat.zero_add]
        exact ih separate.2
      · obtain ⟨earlier,among,inside⟩ := List.countP_pos_iff.mp (Nat.pos_of_ne_zero met)
        have past : within windowMs start (rest.flatMap (·.take max)) = 0 := by
          refine List.countP_eq_zero.mpr fun now later => ?_
          obtain ⟨window,there,taken⟩ := List.mem_flatMap.mp later
          have apart := separate.1 earlier (List.mem_of_mem_take among) window there now (List.mem_of_mem_take taken)
          simp only [decide_eq_true_eq] at inside ⊢
          omega
        rw [List.flatMap_cons,joined,past]
        have own := few former
        have own' := few next
        omega

theorem admitted_sorted (max : Nat) {windows : List (List Int)} (sorted : windows.flatten.Pairwise (· ≤ ·)) : (windows.flatMap (·.take max)).Pairwise (· ≤ ·) := by
  refine sorted.sublist ?_
  rw [← List.flatMap_id]
  induction windows with
  | nil => exact List.Sublist.refl _
  | cons window rest ih =>
    rw [List.flatMap_cons,List.flatMap_cons]
    exact (List.take_sublist ..).append (ih (by rw [List.flatten_cons] at sorted; exact (List.pairwise_append.mp sorted).2.1))

theorem windows_bounded (sorted : calls.Pairwise (· ≤ ·)) :
    Bounded windowMs max ((windows windowMs calls).flatMap (·.take max)) ↔ (windows windowMs calls).IsChain (Fits windowMs max) := by
  cases calls with
  | nil => simp [windows,Bounded,within]
  | cons now rest =>
    obtain ⟨_,later⟩ := List.pairwise_cons.mp sorted
    have held : ∀ call ∈ [now], call ≤ now + windowMs := by
      intro call own
      rw [List.mem_singleton.mp own]
      omega
    have separate := windowsFrom_separate windowMs now [now] later held
    have flat := windowsFrom_flatten windowMs now [now] rest
    obtain ⟨first,more,shape⟩ := windowsFrom_cons windowMs now [now] rest
    have ordered := admitted_sorted max (show (windows windowMs (now::rest)).flatten.Pairwise (· ≤ ·) by
      rw [windows,flat]
      exact sorted)
    have nothing : Bounded windowMs max [] := fun start => Nat.zero_le _
    rw [← List.nil_append ((windows windowMs (now::rest)).flatMap _),← spaced_bounded (by simpa using ordered) nothing,windows,shape]
    rw [shape] at separate
    have few : Spaced windowMs max [] (first.take max) := spaced_few (List.length_take_le ..)
    have chain : Spaced windowMs max ([] ++ first.take max) (more.flatMap (·.take max)) ↔ (first::more).IsChain (Fits windowMs max) :=
      spaced_chain (by simp) separate
    rw [List.flatMap_cons,spaced_append]
    simp only [few,true_and]
    exact chain

end

section
variable {κ : Type} [DecidableEq κ] {key : κ} {windowMs max : Nat}

def Held (windowMs max : Nat) (start last : Int) (count : Nat) : Option RateLimitEntry → Prop
  | some entry => entry.windowStart = start ∧ entry.windowMs = windowMs ∧ Min.min entry.count max = Min.min count max
  | none => start + windowMs < last

omit [DecidableEq κ] in
theorem held_cleanup (held : Held windowMs max start last count (state.memoryStore key)) (later : last ≤ now) :
    Held windowMs max start now count ((cleanup state now).memoryStore key) := by
  unfold cleanup
  split
  · cases entry : state.memoryStore key with
    | none =>
      rw [entry] at held
      simp only [entry,Option.filter_none]
      exact Int.lt_of_lt_of_le held later
    | some entry' =>
      rw [entry] at held
      simp only [entry]
      obtain ⟨opened,own,_⟩ := held
      by_cases stale : entry'.windowStart + entry'.windowMs < now
      · rw [Option.filter_some_neg (by simpa using stale)]
        rw [opened,own] at stale
        exact stale
      · rw [Option.filter_some_pos (by simpa using stale)]
        exact ⟨opened,own,‹_›⟩
  · cases entry : state.memoryStore key with
    | none =>
      rw [entry] at held
      exact Int.lt_of_lt_of_le held later
    | some _ =>
      rw [entry] at held
      exact held

omit [DecidableEq κ] in
theorem cleanup_none (missing : state.memoryStore key = none) (now : Int) : (cleanup state now).memoryStore key = none := by
  unfold cleanup
  split
  · simp [missing]
  · exact missing

theorem set_other {state : State κ} {other : κ} (apart : other ≠ key) (entry : RateLimitEntry) : (state.set other entry).memoryStore key = state.memoryStore key :=
  Function.update_of_ne (Ne.symm apart) ..

theorem set_own {state : State κ} (entry : RateLimitEntry) : (state.set key entry).memoryStore key = some entry := Function.update_self ..

theorem call_other (state : State κ) {call : Call κ} (apart : call.key ≠ key) :
    (memoryRateLimit state call).1.memoryStore key = (cleanup state call.now).memoryStore key := by
  unfold memoryRateLimit
  simp only
  split
  · exact set_other apart _
  · split
    · exact set_other apart _
    · split
      · rfl
      · exact set_other apart _

theorem call_opens (state : State κ) (call : Call κ) (stale : ∀ entry, (cleanup state call.now).memoryStore call.key = some entry →
    entry.windowStart + call.windowMs < call.now) :
    (memoryRateLimit state call).2 = 0 ∧ (memoryRateLimit state call).1.memoryStore call.key = some ⟨1,call.now,call.windowMs⟩ := by
  unfold memoryRateLimit
  simp only
  split
  · exact ⟨rfl,set_own _⟩
  · rename_i entry found
    have past := stale entry found
    rw [if_pos (by omega)]
    exact ⟨rfl,set_own _⟩

theorem wait_some (freesAt now : Int) : secondsUntil freesAt now ≠ 0 := by
  unfold secondsUntil
  omega

theorem call_inside (state : State κ) (count : Nat) {call : Call κ} (found : (cleanup state call.now).memoryStore call.key = some entry)
    (inside : call.now ≤ entry.windowStart + call.windowMs) (counted : Min.min entry.count call.max = Min.min count call.max) :
    ((memoryRateLimit state call).2 = 0 ↔ count < call.max) ∧ ∃ after, (memoryRateLimit state call).1.memoryStore call.key = some after ∧
      after.windowStart = entry.windowStart ∧ after.windowMs = entry.windowMs ∧ Min.min after.count call.max = Min.min (count + 1) call.max := by
  unfold memoryRateLimit
  simp only [found]
  rw [if_neg (by omega)]
  split
  · rename_i refused
    simp only [Bool.and_eq_true,Bool.not_eq_true',decide_eq_true_eq] at refused
    refine ⟨⟨fun none => absurd none (wait_some _ _),fun fewer => by omega⟩,entry,found,rfl,rfl,by omega⟩
  · refine ⟨?_,_,set_own _,rfl,rfl,by simp only; omega⟩
    split
    · simp only [true_iff]
      omega
    · simp only [wait_some,false_iff]
      omega

-- The calls of one bucket: what is fixed of its own, and the clock of all.
structure Steady (key : κ) (windowMs max : Nat) (calls : List (Call κ)) : Prop where
  fixed : ∀ call ∈ calls, call.key = key → call.windowMs = windowMs ∧ call.max = max
  clock : (calls.map Call.now).Pairwise (· ≤ ·)

omit [DecidableEq κ] in
theorem Steady.tail (steady : Steady key windowMs max (call::calls)) : Steady key windowMs max calls :=
  ⟨fun other member => steady.fixed other (List.mem_cons_of_mem _ member),(List.pairwise_cons.mp steady.clock).2⟩

omit [DecidableEq κ] in
theorem Steady.next (steady : Steady key windowMs max (call::calls)) : ∀ later ∈ calls, call.now ≤ later.now :=
  fun later member => (List.pairwise_cons.mp steady.clock).1 later.now (List.mem_map_of_mem member)

theorem times_own {calls : List (Call κ)} {call : Call κ} (own : call.key = key) : times key (call::calls) = call.now::times key calls := by
  simp [times,own]

theorem times_other {calls : List (Call κ)} {call : Call κ} (apart : call.key ≠ key) : times key (call::calls) = times key calls := by
  simp [times,apart]

theorem admittedFrom_other {calls : List (Call κ)} {call : Call κ} (state : State κ) (apart : call.key ≠ key) :
    admittedFrom key state (call::calls) = admittedFrom key (memoryRateLimit state call).1 calls := by
  simp [admittedFrom,apart]

theorem take_snoc (max : Nat) (window : List Int) (now : Int) :
    (window ++ [now]).take max = window.take max ++ if window.length < max then [now] else [] := by
  rw [List.take_append]
  congr 1
  split
  · obtain ⟨more,some_left⟩ : ∃ more, max - window.length = more + 1 := ⟨max - window.length - 1,by omega⟩
    simp [some_left]
  · rw [show max - window.length = 0 by omega]
    rfl

theorem admitted_from (configured : 1 ≤ max) (state : State κ) (steady : Steady key windowMs max calls) (reached : ∀ call ∈ calls, last ≤ call.now)
    (held : Held windowMs max start last window.length (state.memoryStore key)) :
    (windowsFrom windowMs start window (times key calls)).flatMap (·.take max) = window.take max ++ admittedFrom key state calls := by
  induction calls generalizing state start last window with
  | nil => simp [times,windowsFrom,admittedFrom]
  | cons call calls ih =>
    have kept := held_cleanup held (reached call (List.mem_cons_self ..))
    by_cases own : call.key = key
    · obtain ⟨window_same,max_same⟩ := steady.fixed call (List.mem_cons_self ..) own
      rw [times_own own,windowsFrom]
      split
      · rename_i reset
        have opens := call_opens state call (by
          intro entry found
          rw [own] at found
          rw [found] at kept
          rw [kept.1,window_same]
          exact reset)
        have fresh : Held windowMs max call.now call.now [call.now].length ((memoryRateLimit state call).1.memoryStore key) := by
          rw [← own,opens.2]
          exact ⟨rfl,window_same,rfl⟩
        have first : [call.now].take max = [call.now] := List.take_of_length_le (by simpa using configured)
        rw [List.flatMap_cons,ih (memoryRateLimit state call).1 steady.tail steady.next fresh,first]
        simp [admittedFrom,own,opens.1]
      · rename_i inside
        cases entry : (cleanup state call.now).memoryStore key with
        | none =>
          rw [entry] at kept
          exact absurd kept inside
        | some entry' =>
          rw [entry] at kept
          obtain ⟨opened,width,counted⟩ := kept
          rw [← own] at entry
          obtain ⟨answer,after,found,same_start,same_width,same_count⟩ := call_inside state window.length entry
            (by rw [opened,window_same]; omega) (by rw [max_same]; exact counted)
          have next : Held windowMs max start call.now (window ++ [call.now]).length ((memoryRateLimit state call).1.memoryStore key) := by
            rw [← own,found]
            exact ⟨same_start.trans opened,same_width.trans width,by rw [← max_same,same_count,List.length_append]; rfl⟩
          rw [ih (memoryRateLimit state call).1 steady.tail steady.next next,take_snoc,List.append_assoc,← max_same]
          simp [admittedFrom,own,answer]
    · have next : Held windowMs max start call.now window.length ((memoryRateLimit state call).1.memoryStore key) := by
        rw [call_other state own]
        exact kept
      rw [times_other own,admittedFrom_other state own]
      exact ih (memoryRateLimit state call).1 steady.tail steady.next next

theorem admitted_windows (configured : 1 ≤ max) (state : State κ) (fresh : state.memoryStore key = none) (steady : Steady key windowMs max calls) :
    admittedFrom key state calls = (windows windowMs (times key calls)).flatMap (·.take max) := by
  induction calls generalizing state with
  | nil => rfl
  | cons call calls ih =>
    by_cases own : call.key = key
    · obtain ⟨window_same,max_same⟩ := steady.fixed call (List.mem_cons_self ..) own
      have opens := call_opens state call (by
        intro entry found
        rw [own,cleanup_none fresh] at found
        cases found)
      have held : Held windowMs max call.now call.now [call.now].length ((memoryRateLimit state call).1.memoryStore key) := by
        rw [← own,opens.2]
        exact ⟨rfl,window_same,rfl⟩
      have first : [call.now].take max = [call.now] := List.take_of_length_le (by simpa using configured)
      rw [times_own own,windows,admitted_from configured (memoryRateLimit state call).1 steady.tail steady.next held,first]
      simp [admittedFrom,own,opens.1]
    · rw [times_other own,admittedFrom_other state own]
      refine ih (memoryRateLimit state call).1 ?_ steady.tail
      rw [call_other state own,cleanup_none fresh]

theorem times_sorted (steady : Steady key windowMs max calls) : (times key calls).Pairwise (· ≤ ·) := by
  refine steady.clock.sublist ?_
  exact (List.filter_sublist ..).map _

theorem bounded_exact (configured : 1 ≤ max) (state : State κ) (fresh : state.memoryStore key = none) (steady : Steady key windowMs max calls) :
    Bounded windowMs max (admittedFrom key state calls) ↔ (windows windowMs (times key calls)).IsChain (Fits windowMs max) := by
  rw [admitted_windows configured state fresh steady]
  exact windows_bounded (times_sorted steady)

-- Whatever the two windows on either side of a reset hold, an interval of a window's length admits no more than twice the bound.
theorem bounded_twice (configured : 1 ≤ max) (state : State κ) (fresh : state.memoryStore key = none) (steady : Steady key windowMs max calls) :
    Bounded windowMs (2 * max) (admittedFrom key state calls) := by
  intro start
  rw [admitted_windows configured state fresh steady]
  have sorted := times_sorted steady
  cases own : times key calls with
  | nil => exact Nat.zero_le _
  | cons now rest =>
    rw [own] at sorted
    refine separate_double (windowsFrom_separate windowMs now [now] (List.pairwise_cons.mp sorted).2 fun call single => ?_) start
    rw [List.mem_singleton.mp single]
    omega

end

def burst : List (Call String) := [⟨"k",0,1000,2,false⟩,⟨"k",1000,1000,2,false⟩,⟨"k",1001,1000,2,false⟩,⟨"k",1002,1000,2,false⟩]

def State.empty : State String := ⟨fun _ => none,0⟩

theorem burst_steady : Steady "k" 1000 2 burst := ⟨by simp [burst],by simp [burst]⟩

theorem bounded_exact_burst : Bounded 1000 2 (admittedFrom "k" State.empty burst) ↔ (windows 1000 (times "k" burst)).IsChain (Fits 1000 2) :=
  bounded_exact (by decide) State.empty rfl burst_steady

theorem bounded_twice_burst : Bounded 1000 (2 * 2) (admittedFrom "k" State.empty burst) := bounded_twice (by decide) State.empty rfl burst_steady

-- Three calls within three milliseconds, one at the end of a window and two in the next.
theorem burst_admitted : ¬ ∀ (windowMs max : Nat) (state : State String) (key : String) (calls : List (Call String)), 1 ≤ max →
    state.memoryStore key = none → Steady key windowMs max calls → Bounded windowMs max (admittedFrom key state calls) := by
  intro always
  have few := always 1000 2 State.empty "k" burst (by decide) rfl burst_steady 1000
  revert few
  decide

end Zveltio.MemoryLimit

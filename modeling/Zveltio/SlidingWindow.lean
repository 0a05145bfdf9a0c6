import Mathlib.Data.List.Sort
import Mathlib.Order.Bounds.Basic
import Mathlib.Data.List.Count
namespace Zveltio.SlidingWindow

-- A call's member is its own, so an entry is its score. The clock is the caller's, and the key's expiry goes by it.
structure Bucket where
  entries : List Nat
  expiresAt : Option Nat
  deriving DecidableEq

def Bucket.empty : Bucket := ⟨[],none⟩

def Bucket.live (bucket : Bucket) (now : Nat) : List Nat := if bucket.expiresAt.any (· < now) then [] else bucket.entries

section
variable (windowMs max : Nat) (keepRefused : Bool)

-- ZREMRANGEBYSCORE from 0 to now - window, both ends with it.
def prune (now : Nat) (entries : List Nat) : List Nat := entries.filter fun score => !(score + windowMs ≤ now)

def admits (bucket : Bucket) (now : Nat) : Bool := (prune windowMs now (bucket.live now)).length < max

-- The script: what it leaves, the count and the score it returns.
def SLIDING_WINDOW_LUA (bucket : Bucket) (now : Nat) : Bucket × Nat × Nat :=
  let kept := prune windowMs now (bucket.live now)
  let admitted := kept.length < max
  let next : Bucket := if admitted ∨ keepRefused then ⟨kept.orderedInsert (· < ·) now,some (now + windowMs)⟩ else ⟨kept,bucket.expiresAt⟩
  let n := if admitted ∨ keepRefused then kept.length + 1 else kept.length
  if admitted then (next,n,0) else (next,n,next.entries[n - max]?.getD now)

def secondsUntil (freesAt now : Nat) : Nat := Nat.max 1 ((freesAt - now + 999) / 1000)

-- The bucket after a call, and the call's wait.
def slidingWindow (bucket : Bucket) (now : Nat) : Bucket × Nat :=
  let result := SLIDING_WINDOW_LUA windowMs max keepRefused bucket now
  (result.1,if result.2.2 = 0 then 0 else secondsUntil (result.2.2 + windowMs) now)

def bucketAfter (calls : List Nat) : Bucket := calls.foldl (fun bucket now => (slidingWindow windowMs max keepRefused bucket now).1) .empty

-- The calls of these that are admitted, and that are recorded.
def admittedFrom (bucket : Bucket) : List Nat → List Nat
  | [] => []
  | now::later => (if admits windowMs max bucket now then [now] else []) ++ admittedFrom (slidingWindow windowMs max keepRefused bucket now).1 later

def recordedFrom (bucket : Bucket) : List Nat → List Nat
  | [] => []
  | now::later => (if admits windowMs max bucket now || keepRefused then [now] else []) ++ recordedFrom (slidingWindow windowMs max keepRefused bucket now).1 later

end

section
variable {windowMs max : Nat} {keepRefused : Bool}

theorem mem_prune : score ∈ prune windowMs now entries ↔ score ∈ entries ∧ now < score + windowMs := by
  simp [prune]

theorem prune_prune (later : now ≤ next) : prune windowMs next (prune windowMs now entries) = prune windowMs next entries := by
  rw [prune,prune,List.filter_filter]
  refine List.filter_congr fun score _ => ?_
  simp only [Bool.and_eq_left_iff_imp,Bool.not_eq_true',decide_eq_false_iff_not,Nat.not_le]
  exact Nat.lt_of_le_of_lt later

theorem next_bucket (bucket : Bucket) (now : Nat) : (slidingWindow windowMs max keepRefused bucket now).1 =
    if admits windowMs max bucket now || keepRefused then ⟨(prune windowMs now (bucket.live now)).orderedInsert (· < ·) now,some (now + windowMs)⟩
    else ⟨prune windowMs now (bucket.live now),bucket.expiresAt⟩ := by
  simp only [slidingWindow,SLIDING_WINDOW_LUA,admits,Bool.or_eq_true,decide_eq_true_eq]
  split <;> rfl

theorem prune_append (now : Nat) (first second : List Nat) : prune windowMs now (first ++ second) = prune windowMs now first ++ prune windowMs now second :=
  List.filter_append ..

def Faithful (windowMs : Nat) (bucket : Bucket) (recorded : List Nat) (last : Nat) : Prop :=
  recorded.Pairwise (· ≤ ·) ∧ (∀ score ∈ recorded, score ≤ last) ∧
    ∀ now, last ≤ now → prune windowMs now (bucket.live now) = prune windowMs now recorded

theorem live_next {now next : Nat} {entries : List Nat} (bound : ∀ score ∈ entries, score ≤ now) :
    prune windowMs next (Bucket.live ⟨entries,some (now + windowMs)⟩ next) = prune windowMs next entries := by
  unfold Bucket.live
  split
  · next expired =>
    have past : now + windowMs < next := by simpa using expired
    symm
    refine List.filter_eq_nil_iff.mpr fun score member => ?_
    have early := bound score member
    simp only [Bool.not_eq_true',decide_eq_false_iff_not,Nat.not_le,Nat.not_lt]
    omega
  · rfl

theorem insert_last {now : Nat} {entries : List Nat} (bound : ∀ score ∈ entries, score ≤ now) :
    entries.orderedInsert (· < ·) now = entries ++ [now] := by
  induction entries with
  | nil => rfl
  | cons score rest ih =>
    rw [List.orderedInsert,if_neg (Nat.not_lt.mpr (bound score (List.mem_cons_self ..))),ih fun other member => bound other (List.mem_cons_of_mem _ member)]
    rfl

theorem faithful_empty : Faithful windowMs .empty [] 0 := ⟨.nil,fun _ wrong => absurd wrong List.not_mem_nil,fun _ _ => rfl⟩

theorem pruned_next {bucket : Bucket} (faithful : Faithful windowMs bucket recorded last) (ordered : last ≤ now) (later : now ≤ next) :
    prune windowMs next ((slidingWindow windowMs max keepRefused bucket now).1.live next) =
      prune windowMs next (recorded ++ if admits windowMs max bucket now || keepRefused then [now] else []) := by
  obtain ⟨_,bound,same⟩ := faithful
  have early : ∀ score ∈ prune windowMs now (bucket.live now), score ≤ now := by
    intro score member
    rw [same now ordered] at member
    exact Nat.le_trans (bound score (mem_prune.mp member).1) ordered
  have kept : prune windowMs next (prune windowMs now (bucket.live now)) = prune windowMs next recorded := by
    rw [same now ordered]
    exact prune_prune later
  rw [next_bucket]
  split
  · have bounded : ∀ score ∈ prune windowMs now (bucket.live now) ++ [now], score ≤ now := by
      intro score member
      rcases List.mem_append.mp member with old | last
      · exact early score old
      · exact Nat.le_of_eq (List.mem_singleton.mp last)
    rw [insert_last early,live_next bounded,prune_append,prune_append,kept]
  · rw [List.append_nil,← same next (Nat.le_trans ordered later)]
    by_cases expired : bucket.expiresAt.any (· < next) = true
    · simp only [Bucket.live,expired,if_true]
    · have before : bucket.live now = bucket.entries := by
        refine if_neg fun gone => expired ?_
        cases deadline : bucket.expiresAt with
        | none => simp [deadline] at gone
        | some deadline =>
          simp only [deadline,Option.any_some,decide_eq_true_eq] at gone ⊢
          omega
      rw [before]
      simp only [Bucket.live,expired]
      exact prune_prune later

theorem faithful_next {bucket : Bucket} (faithful : Faithful windowMs bucket recorded last) (ordered : last ≤ now) :
    Faithful windowMs (slidingWindow windowMs max keepRefused bucket now).1
      (recorded ++ if admits windowMs max bucket now || keepRefused then [now] else []) now := by
  have own : ∀ score ∈ (if admits windowMs max bucket now || keepRefused then [now] else []), score = now := by
    intro score member
    split at member
    · exact List.mem_singleton.mp member
    · cases member
  have early : ∀ score ∈ recorded, score ≤ now := fun score member => Nat.le_trans (faithful.2.1 score member) ordered
  refine ⟨?_,?_,fun next later => pruned_next faithful ordered later⟩
  · refine List.pairwise_append.mpr ⟨faithful.1,?_,fun one inOne two inTwo => own two inTwo ▸ early one inOne⟩
    split
    · exact List.pairwise_singleton ..
    · exact .nil
  · intro score member
    rcases List.mem_append.mp member with old | last
    · exact early score old
    · exact Nat.le_of_eq (own score last)

def inWindow (windowMs now : Nat) (recorded : List Nat) : Nat := recorded.countP fun earlier => now < earlier + windowMs ∧ earlier ≤ now

theorem admits_window {bucket : Bucket} (faithful : Faithful windowMs bucket recorded last) (ordered : last ≤ now) :
    admits windowMs max bucket now = decide (inWindow windowMs now recorded < max) := by
  unfold admits inWindow
  rw [faithful.2.2 now ordered,prune,← List.countP_eq_length_filter]
  congr 2
  refine List.countP_congr fun score member => ?_
  have early := Nat.le_trans (faithful.2.1 score member) ordered
  simp [early]

-- An interval of the clock, half open, of the window's length.
def within (windowMs : Nat) («from» : Int) (calls : List Nat) : Nat := calls.countP fun (now : Nat) => «from» ≤ (now : Int) ∧ (now : Int) < «from» + windowMs

-- One more admitted call still leaves at most max in every interval, since those of it that came before lie in the call's own window.
theorem within_next {admitted : List Nat} (bound : within windowMs start admitted ≤ max) (early : ∀ call ∈ admitted, call ≤ now)
    (fewer : inWindow windowMs now admitted < max) : within windowMs start (admitted ++ [now]) ≤ max := by
  unfold within at *
  rw [List.countP_append,List.countP_singleton]
  split
  · next inside =>
    simp only [decide_eq_true_eq] at inside
    refine Nat.lt_of_le_of_lt ?_ fewer
    refine List.countP_mono_left fun call member held => ?_
    have before := early call member
    simp only [decide_eq_true_eq] at held ⊢
    omega
  · exact bound

theorem faithful_later {bucket : Bucket} (faithful : Faithful windowMs bucket recorded last) (later : last ≤ now) : Faithful windowMs bucket recorded now :=
  ⟨faithful.1,fun score member => Nat.le_trans (faithful.2.1 score member) later,fun next after => faithful.2.2 next (Nat.le_trans later after)⟩

theorem faithful_from {bucket : Bucket} (faithful : Faithful windowMs bucket recorded last) (ordered : (last::calls).Pairwise (· ≤ ·))
    (bound : ∀ call ∈ last::calls, call ≤ now) :
    Faithful windowMs (calls.foldl (fun bucket now => (slidingWindow windowMs max keepRefused bucket now).1) bucket)
      (recorded ++ recordedFrom windowMs max keepRefused bucket calls) now := by
  induction calls generalizing bucket recorded last with
  | nil =>
    rw [recordedFrom,List.append_nil]
    exact faithful_later faithful (bound last (List.mem_cons_self ..))
  | cons call rest ih =>
    obtain ⟨first,later⟩ := List.pairwise_cons.mp ordered
    rw [recordedFrom,← List.append_assoc]
    exact ih (faithful_next faithful (first call (List.mem_cons_self ..))) later fun other member => bound other (List.mem_cons_of_mem _ member)

theorem faithful_after (ordered : (calls ++ [now]).Pairwise (· ≤ ·)) :
    Faithful windowMs (bucketAfter windowMs max keepRefused calls) (recordedFrom windowMs max keepRefused .empty calls) now := by
  obtain ⟨early,_,bound⟩ := List.pairwise_append.mp ordered
  refine faithful_from faithful_empty (List.pairwise_cons.mpr ⟨fun _ _ => Nat.zero_le _,early⟩) ?_
  intro call member
  rcases List.mem_cons.mp member with rfl | inside
  · exact Nat.zero_le _
  · exact bound call inside now (List.mem_singleton_self _)

theorem within_from {bucket : Bucket} {admitted : List Nat} (faithful : Faithful windowMs bucket recorded last) (ordered : (last::calls).Pairwise (· ≤ ·))
    (sub : admitted.Sublist recorded) (bound : within windowMs start admitted ≤ max) :
    within windowMs start (admitted ++ admittedFrom windowMs max keepRefused bucket calls) ≤ max := by
  induction calls generalizing bucket recorded last admitted with
  | nil => simpa [admittedFrom] using bound
  | cons call rest ih =>
    obtain ⟨first,later⟩ := List.pairwise_cons.mp ordered
    have next := first call (List.mem_cons_self ..)
    have following : Faithful windowMs (slidingWindow windowMs max keepRefused bucket call).1 _ call := faithful_next faithful next
    rw [admittedFrom,← List.append_assoc]
    refine ih following later ?_ ?_
    · refine sub.append ?_
      cases admits windowMs max bucket call <;> simp
    · split
      · next admitted_now =>
        refine within_next bound (fun old member => Nat.le_trans (faithful.2.1 old (sub.subset member)) next) ?_
        rw [admits_window faithful next,decide_eq_true_eq] at admitted_now
        exact Nat.lt_of_le_of_lt sub.countP_le admitted_now
      · rwa [List.append_nil]

-- In an ordered list that has as many, fewer than max lie past a bound exactly when the one that is max from the end does not.
theorem count_suffix {entries : List Nat} (ordered : entries.Pairwise (· ≤ ·)) (enough : max ≤ entries.length)
    (there : entries[entries.length - max]? = some freed) :
    (entries.countP fun score => now < score + windowMs) < max ↔ freed + windowMs ≤ now := by
  obtain ⟨inside,rfl⟩ := List.getElem?_eq_some_iff.mp there
  have size : (entries.drop (entries.length - max)).length = max := by rw [List.length_drop]; omega
  constructor
  · intro few
    by_contra past
    have all : (entries.drop (entries.length - max)).countP (fun score => now < score + windowMs) = max := by
      refine (List.countP_eq_length.mpr ?_).trans size
      intro score member
      obtain ⟨place,bound,rfl⟩ := List.getElem_of_mem member
      rw [List.getElem_drop]
      have within' : entries.length - max + place < entries.length := by
        rw [List.length_drop] at bound
        omega
      have above : entries[entries.length - max] ≤ entries[entries.length - max + place] := by
        rcases Nat.eq_zero_or_pos place with rfl | later
        · exact Nat.le_refl _
        · exact List.pairwise_iff_getElem.mp ordered _ _ _ _ (by omega)
      simp only [decide_eq_true_eq]
      omega
    have fewer := (List.drop_sublist (entries.length - max) entries).countP_le (p := fun score => now < score + windowMs)
    omega
  · intro past
    have none_there : (entries.take (entries.length - max + 1)).countP (fun score => now < score + windowMs) = 0 := by
      rw [List.countP_eq_zero]
      intro score member
      obtain ⟨place,bound,rfl⟩ := List.getElem_of_mem member
      rw [List.getElem_take]
      rw [List.length_take] at bound
      have within' : place < entries.length := by omega
      have below : entries[place] ≤ entries[entries.length - max] := by
        rcases Nat.lt_or_ge place (entries.length - max) with before | here
        · exact List.pairwise_iff_getElem.mp ordered _ _ _ _ before
        · have same : place = entries.length - max := by omega
          subst same
          exact Nat.le_refl _
      simp only [decide_eq_true_eq]
      omega
    have split_count := congrArg (List.countP fun score => now < score + windowMs) (List.take_append_drop (entries.length - max + 1) entries)
    rw [List.countP_append,none_there,Nat.zero_add] at split_count
    have rest := List.countP_le_length (p := fun score => decide (now < score + windowMs)) (l := entries.drop (entries.length - max + 1))
    rw [List.length_drop] at rest
    omega

theorem faithful_inWindow {recorded : List Nat} (early : ∀ score ∈ recorded, score ≤ next) :
    inWindow windowMs next recorded = recorded.countP fun score => next < score + windowMs := by
  refine List.countP_congr fun score member => ?_
  simp [early score member]

theorem refused_entries {bucket : Bucket} (faithful : Faithful windowMs bucket recorded last) (ordered : last ≤ now) (some_max : 1 ≤ max)
    (refused : admits windowMs max bucket now = false) :
    SLIDING_WINDOW_LUA windowMs max keepRefused bucket now =
      let entries := prune windowMs now (recorded ++ if keepRefused then [now] else [])
      (⟨entries,if keepRefused then some (now + windowMs) else bucket.expiresAt⟩,entries.length,entries[entries.length - max]?.getD now) := by
  have full : ¬(prune windowMs now recorded).length < max := by
    simpa [admits,faithful.2.2 now ordered] using refused
  have early : ∀ score ∈ prune windowMs now recorded, score ≤ now :=
    fun score member => Nat.le_trans (faithful.2.1 score (mem_prune.mp member).1) ordered
  have wide : 0 < windowMs := by
    have there : prune windowMs now recorded ≠ [] := fun none_there => full (by rw [none_there]; exact some_max)
    obtain ⟨score,member⟩ := List.exists_mem_of_ne_nil _ there
    have inside := (mem_prune.mp member).2
    have before := early score member
    omega
  have own : prune windowMs now [now] = [now] := by simp [prune,wide]
  rw [SLIDING_WINDOW_LUA,faithful.2.2 now ordered]
  cases keepRefused with
  | true => simp [full,prune_append,own,insert_last early]
  | false => simp [full]

theorem wait_exact {bucket : Bucket} (faithful : Faithful windowMs bucket recorded last) (ordered : last ≤ now) (some_max : 1 ≤ max)
    (refused : admits windowMs max bucket now = false) (positive : ∀ call ∈ recorded ++ [now], 0 < call) :
    IsLeast {seconds | 1 ≤ seconds ∧ admits windowMs max (slidingWindow windowMs max keepRefused bucket now).1 (now + 1000 * seconds) = true}
      (slidingWindow windowMs max keepRefused bucket now).2 := by
  have following : Faithful windowMs (slidingWindow windowMs max keepRefused bucket now).1 _ now := faithful_next faithful ordered
  rw [refused,Bool.false_or] at following
  have script : SLIDING_WINDOW_LUA windowMs max keepRefused bucket now = _ := refused_entries faithful ordered some_max refused
  generalize left : prune windowMs now (recorded ++ if keepRefused then [now] else []) = entries at script
  have enough : max ≤ entries.length := by
    rw [← left,prune_append,List.length_append]
    have full : max ≤ (prune windowMs now recorded).length := by simpa [admits,faithful.2.2 now ordered] using refused
    omega
  have sorted : entries.Pairwise (· ≤ ·) := left ▸ following.1.sublist List.filter_sublist
  obtain ⟨freed,there⟩ : ∃ freed, entries[entries.length - max]? = some freed := ⟨_,List.getElem?_eq_getElem (by omega)⟩
  have inside : freed ∈ entries := List.mem_of_getElem? there
  have freeing : entries[entries.length - max]?.getD now = freed := by rw [there]; rfl
  have suffix (seconds : Nat) : (entries.countP fun score => now + 1000 * seconds < score + windowMs) < max ↔
      freed + windowMs ≤ now + 1000 * seconds := count_suffix sorted enough there
  obtain ⟨recorded_there,open_still⟩ := mem_prune.mp (left ▸ inside)
  have stamped : 0 < freed := by
    refine positive freed ?_
    rcases List.mem_append.mp recorded_there with old | own
    · exact List.mem_append_left _ old
    · refine List.mem_append_right _ ?_
      cases keepRefused with
      | true => exact own
      | false => cases own
  have waits : (slidingWindow windowMs max keepRefused bucket now).2 = secondsUntil (freed + windowMs) now := by
    simp only [slidingWindow,script,freeing]
    rw [if_neg (Nat.ne_of_gt stamped)]
  have admitted (seconds : Nat) : admits windowMs max (slidingWindow windowMs max keepRefused bucket now).1 (now + 1000 * seconds) = true ↔
      freed + windowMs ≤ now + 1000 * seconds := by
    rw [admits_window following (Nat.le_add_right ..),decide_eq_true_eq,← suffix,
      faithful_inWindow fun score member => Nat.le_trans (following.2.1 score member) (Nat.le_add_right ..),← left,prune,List.countP_filter]
    refine iff_of_eq (congrArg (· < max) (List.countP_congr fun score _ => ?_))
    simp only [decide_eq_true_eq,Bool.and_eq_true,Bool.not_eq_true',decide_eq_false_iff_not]
    omega
  rw [waits]
  have least : (freed + windowMs - now + 999) / 1000 ≤ secondsUntil (freed + windowMs) now := Nat.le_max_right ..
  constructor
  · refine ⟨Nat.le_max_left ..,(admitted _).mpr ?_⟩
    omega
  · rintro seconds ⟨some_wait,held⟩
    have late := (admitted seconds).mp held
    refine Nat.max_le.mpr ⟨some_wait,?_⟩
    omega

theorem recorded_sub {bucket : Bucket} : (recordedFrom windowMs max keepRefused bucket calls).Sublist calls := by
  induction calls generalizing bucket with
  | nil => exact .slnil
  | cons call rest ih =>
    rw [recordedFrom]
    split
    · exact ih.cons_cons call
    · exact ih.cons call

theorem wait_admitted {bucket : Bucket} (admitted : admits windowMs max bucket now = true) : (slidingWindow windowMs max keepRefused bucket now).2 = 0 := by
  have few : (prune windowMs now (bucket.live now)).length < max := by simpa [admits] using admitted
  simp [slidingWindow,SLIDING_WINDOW_LUA,few]

theorem window_exact (some_max : 1 ≤ max) {calls : List Nat} (ordered : calls.Pairwise (· ≤ ·)) (positive : ∀ call ∈ calls, 0 < call) :
    (∀ start, within windowMs start (admittedFrom windowMs max keepRefused .empty calls) ≤ max) ∧
    ∀ before now after, calls = before ++ now::after →
      (admits windowMs max (bucketAfter windowMs max keepRefused before) now = true →
        (slidingWindow windowMs max keepRefused (bucketAfter windowMs max keepRefused before) now).2 = 0) ∧
      (admits windowMs max (bucketAfter windowMs max keepRefused before) now = false →
        max ≤ inWindow windowMs now (recordedFrom windowMs max keepRefused .empty before) ∧
        IsLeast {seconds | 1 ≤ seconds ∧ admits windowMs max (bucketAfter windowMs max keepRefused (before ++ [now])) (now + 1000 * seconds) = true}
          (slidingWindow windowMs max keepRefused (bucketAfter windowMs max keepRefused before) now).2) := by
  constructor
  · intro start
    have bounded : within windowMs start [] ≤ max := Nat.zero_le _
    exact within_from faithful_empty (List.pairwise_cons.mpr ⟨fun _ _ => Nat.zero_le _,ordered⟩) (.refl []) bounded
  · rintro before now after rfl
    have prefix_ordered : (before ++ [now]).Pairwise (· ≤ ·) := ordered.sublist (List.Sublist.append_left (by simp) before)
    have faithful : Faithful windowMs (bucketAfter windowMs max keepRefused before) _ now := faithful_after prefix_ordered
    refine ⟨wait_admitted,fun refused => ⟨?_,?_⟩⟩
    · rw [admits_window faithful (Nat.le_refl _),decide_eq_false_iff_not,Nat.not_lt] at refused
      exact refused
    · have next : bucketAfter windowMs max keepRefused (before ++ [now]) =
          (slidingWindow windowMs max keepRefused (bucketAfter windowMs max keepRefused before) now).1 := by
        rw [bucketAfter,List.foldl_append]
        rfl
      rw [next]
      refine wait_exact faithful (Nat.le_refl _) some_max refused fun call member => positive call ?_
      rcases List.mem_append.mp member with old | own
      · exact List.mem_append_left _ (recorded_sub.subset old)
      · exact List.mem_append_right _ (List.mem_singleton.mp own ▸ List.mem_cons_self ..)

-- Two admitted, the third refused until the first is a second old.
theorem window_exact_two : (slidingWindow 1000 2 true (bucketAfter 1000 2 true [5,6]) 7).2 = 1 ∧
    IsLeast {seconds | 1 ≤ seconds ∧ admits 1000 2 (bucketAfter 1000 2 true [5,6,7]) (7 + 1000 * seconds) = true}
      (slidingWindow 1000 2 true (bucketAfter 1000 2 true [5,6]) 7).2 :=
  ⟨by decide,(((@window_exact 1000 2 true (by decide) [5,6,7] (by decide) (by decide)).2 [5,6] 7 [] rfl).2 (by decide)).2⟩

-- At the clock's zero a refusal's score reads as an admission.
theorem zero_admitted : admits 1000 1 (bucketAfter 1000 1 false [0]) 0 = false ∧ (slidingWindow 1000 1 false (bucketAfter 1000 1 false [0]) 0).2 = 0 ∧
    ¬IsLeast {seconds | 1 ≤ seconds ∧ admits 1000 1 (bucketAfter 1000 1 false [0,0]) (0 + 1000 * seconds) = true}
      (slidingWindow 1000 1 false (bucketAfter 1000 1 false [0]) 0).2 :=
  ⟨by decide,by decide,fun least => absurd least.1.1 (by decide)⟩

end
end Zveltio.SlidingWindow

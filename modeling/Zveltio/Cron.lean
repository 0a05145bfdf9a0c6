import Zveltio.IpText
import Zveltio.RowRules
namespace Zveltio.Cron

open IpText (Text joined splitOn_joined splitOn_clear joined_mem)
open RowRules (isSpace trim)

-- text.split(/\s+/): a run of spaces cuts once.
@[grind] def words : Text → List Text
  | [] => [[]]
  | char::rest =>
    if isSpace char then if rest.head?.any isSpace then words rest else []::words rest
    else (words rest).modifyHead (char::·)

-- /^\d+$/ and parseInt on what it matches. Digits past the 53rd bit round, far beyond every bound below.
def digits (text : Text) : Bool := text ≠ [] && text.all Char.isDigit

def parseInt (text : Text) : Nat := Nat.ofDigitChars 10 text 0

-- /^(\d+)-(\d+)$/
@[grind] def range (text : Text) : Option (Text × Text) :=
  match text.dropWhile Char.isDigit with
  | '-'::rest => if digits (text.takeWhile Char.isDigit) && digits rest then some (text.takeWhile Char.isDigit,rest) else none
  | _ => none

def add (out : List Nat) (value : Nat) : List Nat := if value ∈ out then out else out ++ [value]

-- for (let v = lo; v <= hi; v += step) out.add(v), with the rounds it can take.
@[grind] def addAll (hi step : Nat) : Nat → Nat → List Nat → List Nat
  | 0, _, out => out
  | rounds+1, v, out => if v ≤ hi then addAll hi step rounds (v + step) (add out v) else out

section
variable (min max : Nat)

def bounds (rangePart : Text) (stepPart : Option Text) : Option (Nat × Nat) :=
  if rangePart = ['*'] then some (min,max)
  else if digits rangePart then some (parseInt rangePart,if stepPart = none then parseInt rangePart else max)
  else (range rangePart).map fun ends => (parseInt ends.1,parseInt ends.2)

-- One round of the loop over the parts.
def parsePart (part : Text) (out : List Nat) : Option (List Nat) :=
  let pieces := part.splitOn '/'
  let rangePart := pieces.headD []
  let stepPart := pieces[1]?
  if stepPart.any fun text => !digits text then none
  else
    let step := stepPart.elim 1 parseInt
    if step < 1 then none
    else (bounds min max rangePart stepPart).bind fun ends =>
      if ends.1 < min ∨ max < ends.2 ∨ ends.2 < ends.1 then none
      else some (addAll ends.2 step (ends.2 + 1 - ends.1) ends.1 out)

@[grind] def parseParts : List Text → List Nat → Option (List Nat)
  | [], out => some out
  | part::parts, out => (parsePart min max part out).bind (parseParts parts)

def parseField (raw : Text) : Option (List Nat) :=
  (parseParts min max (raw.splitOn ',') []).filter (· ≠ [])

end

structure CronFields where
  minute : List Nat
  hour : List Nat
  dom : List Nat
  month : List Nat
  dow : List Nat
  domRestricted : Bool
  dowRestricted : Bool
  deriving DecidableEq

@[grind] def parseCron (expr : String) : Option CronFields :=
  match words (trim expr).toList with
  | [minute,hour,dom,month,dow] =>
    match parseField 0 59 minute,parseField 0 23 hour,parseField 1 31 dom,parseField 1 12 month,parseField 0 6 dow with
    | some minutes,some hours,some doms,some months,some dows => some ⟨minutes,hours,doms,months,dows,dom ≠ ['*'],dow ≠ ['*']⟩
    | _,_,_,_,_ => none
  | _ => none

example : (parseCron " 0,30\t9-17/4 *  * 1-5 ").map (fun fields => (fields.minute,fields.hour,fields.dow)) =
    some ([0,30],[9,13,17],[1,2,3,4,5]) := by decide +kernel

-- The grammar: what an item is written as, when it is one, and the values it stands for.
inductive Range where
  | all
  | one (n : Text)
  | span (a b : Text)

structure Item where
  range : Range
  step : Option Text

namespace Range

@[grind] def text : Range → Text
  | all => ['*']
  | one n => n
  | span a b => a ++ '-'::b

@[grind] def Valid (min max : Nat) : Range → Prop
  | all => True
  | one n => digits n ∧ min ≤ parseInt n ∧ parseInt n ≤ max
  | span a b => digits a ∧ digits b ∧ min ≤ parseInt a ∧ parseInt a ≤ parseInt b ∧ parseInt b ≤ max

end Range

namespace Item

def text (item : Item) : Text := item.range.text ++ item.step.elim [] ('/'::·)

def Valid (min max : Nat) (item : Item) : Prop :=
  item.range.Valid min max ∧ ∀ s ∈ item.step, digits s ∧ 1 ≤ parseInt s

@[grind] def first (min : Nat) (item : Item) : Nat :=
  match item.range with
  | .all => min
  | .one n => parseInt n
  | .span a _ => parseInt a

@[grind] def last (max : Nat) (item : Item) : Nat :=
  match item.range with
  | .all => max
  | .one n => if item.step = none then parseInt n else max
  | .span _ b => parseInt b

def stride (item : Item) : Nat := item.step.elim 1 parseInt

def Has (min max : Nat) (item : Item) (value : Nat) : Prop :=
  ∃ count, value = item.first min + count * item.stride ∧ value ≤ item.last max

end Item

structure Schedule where
  minute : List Item
  hour : List Item
  dom : List Item
  month : List Item
  dow : List Item

def FieldValid (min max : Nat) (items : List Item) : Prop := items ≠ [] ∧ ∀ item ∈ items, item.Valid min max

def fieldText (items : List Item) : Text := joined ',' (items.map Item.text)

namespace Schedule

def Valid (schedule : Schedule) : Prop :=
  FieldValid 0 59 schedule.minute ∧ FieldValid 0 23 schedule.hour ∧ FieldValid 1 31 schedule.dom ∧
    FieldValid 1 12 schedule.month ∧ FieldValid 0 6 schedule.dow

def texts (schedule : Schedule) : List Text :=
  [fieldText schedule.minute,fieldText schedule.hour,fieldText schedule.dom,fieldText schedule.month,fieldText schedule.dow]

end Schedule

-- The text is the words with white space between each two.
inductive Apart : Text → List Text → Prop where
  | word (word : Text) : Apart word [word]
  | gap {text : Text} {words : List Text} (word gap : Text) : gap ≠ [] → (∀ char ∈ gap, isSpace char) → Apart text words →
      Apart (word ++ (gap ++ text)) (word::words)

def Reads (expr : String) (schedule : Schedule) : Prop := schedule.Valid ∧ Apart (trim expr).toList schedule.texts

def Means (min max : Nat) (set : List Nat) (items : List Item) : Prop :=
  ∀ value, value ∈ set ↔ ∃ item ∈ items, item.Has min max value

def Denotes (fields : CronFields) (schedule : Schedule) : Prop :=
  Means 0 59 fields.minute schedule.minute ∧ Means 0 23 fields.hour schedule.hour ∧ Means 1 31 fields.dom schedule.dom ∧
    Means 1 12 fields.month schedule.month ∧ Means 0 6 fields.dow schedule.dow

def Exact (expr : String) : Prop :=
  ((parseCron expr).isSome ↔ ∃ schedule, Reads expr schedule) ∧
    ∀ fields, parseCron expr = some fields → ∀ schedule, Reads expr schedule → Denotes fields schedule

-- An item without its second slash and what follows it.
def cutPart (part : Text) : Text := joined '/' ((part.splitOn '/').take 2)

def cutWord (word : Text) : Text := joined ',' ((word.splitOn ',').map cutPart)

def Clean (expr : String) : Prop := ∀ word ∈ words (trim expr).toList, cutWord word = word

theorem words_space (space : isSpace char = true) (next : rest.head?.any isSpace = true) :
    ∃ more, words (char::rest) = []::more ∧ words rest = []::more := by
  induction rest generalizing char with
  | nil => simp at next
  | cons following rest ih =>
    have following_space : isSpace following = true := by simpa using next
    have same : words (char::following::rest) = words (following::rest) := by simp [words,space,following_space]
    rw [same]
    by_cases again : rest.head?.any isSpace = true
    · obtain ⟨more,whole,_⟩ := ih following_space again
      exact ⟨more,whole,whole⟩
    · have cut : words (following::rest) = []::words rest := by simp [words,following_space,again]
      exact ⟨words rest,cut,cut⟩

theorem words_apart (text : Text) : Apart text (words text) := by
  induction text with
  | nil => exact .word []
  | cons char rest ih =>
    by_cases space : isSpace char = true
    · by_cases next : rest.head?.any isSpace = true
      · obtain ⟨more,whole,later⟩ := words_space space next
        rw [whole]
        rw [later] at ih
        cases ih with
        | word => simp at next
        | gap _ gap some_gap spaces apart =>
          refine .gap [] (char::gap) (List.cons_ne_nil _ _) ?_ apart
          intro held member
          rcases List.mem_cons.mp member with rfl | member
          · exact space
          · exact spaces held member
      · have cut : words (char::rest) = []::words rest := by simp [words,space,next]
        rw [cut]
        exact .gap [] [char] (List.cons_ne_nil _ _) (by simpa using space) ih
    · have joins : words (char::rest) = (words rest).modifyHead (char::·) := by simp [words,space]
      rw [joins]
      generalize words rest = list at ih
      cases ih with
      | word => exact .word _
      | gap word gap some_gap spaces apart => exact .gap (char::word) gap some_gap spaces apart

theorem words_plain (plain : ∀ char ∈ word, isSpace char = false) : words word = [word] := by
  induction word with
  | nil => rfl
  | cons char rest ih =>
    rw [words,if_neg (by simp [plain char List.mem_cons_self]),ih fun held member => plain held (List.mem_cons_of_mem _ member)]
    rfl

theorem words_gap (some_gap : gap ≠ []) (spaces : ∀ char ∈ gap, isSpace char = true) (next : text.head?.any isSpace = false) :
    words (gap ++ text) = []::words text := by
  induction gap with
  | nil => exact absurd rfl some_gap
  | cons char rest ih =>
    have space : isSpace char = true := spaces char List.mem_cons_self
    by_cases empty : rest = []
    · simp [empty,words,space,next]
    · have later := ih empty fun held member => spaces held (List.mem_cons_of_mem _ member)
      obtain ⟨first,more,rfl⟩ := List.exists_cons_of_ne_nil empty
      have following : isSpace first = true := spaces first (by simp)
      rw [← later]
      simp [words,space,following]

theorem words_front (plain : ∀ char ∈ word, isSpace char = false) (whole : words text = []::more) : words (word ++ text) = word::more := by
  induction word with
  | nil => exact whole
  | cons char rest ih =>
    rw [List.cons_append,words,if_neg (by simp [plain char List.mem_cons_self]),ih fun held member => plain held (List.mem_cons_of_mem _ member)]
    rfl

theorem apart_words (apart : Apart text list) (plain : ∀ word ∈ list, word ≠ [] ∧ ∀ char ∈ word, isSpace char = false) :
    words text = list := by
  induction apart with
  | word word => exact words_plain (plain word List.mem_cons_self).2
  | @gap text list word gap some_gap spaces apart ih =>
    have later := ih fun held member => plain held (List.mem_cons_of_mem _ member)
    have next : text.head?.any isSpace = false := by
      cases apart with
      | word =>
        have first := plain text (by simp)
        cases text with
        | nil => rfl
        | cons char _ => simpa using first.2 char List.mem_cons_self
      | gap front =>
        have first := plain front (by simp)
        cases front with
        | nil => exact absurd rfl first.1
        | cons char _ => simpa using first.2 char List.mem_cons_self
    rw [words_front (plain word List.mem_cons_self).2 (words_gap some_gap spaces next),later]

theorem mem_add : value ∈ add out added ↔ value ∈ out ∨ value = added := by
  unfold add
  split
  · next held =>
    constructor
    · exact .inl
    · rintro (member | rfl)
      · exact member
      · exact held
  · simp

theorem mem_addAll (positive : 1 ≤ step) (enough : hi + 1 - v ≤ rounds) :
    value ∈ addAll hi step rounds v out ↔ value ∈ out ∨ ∃ count, value = v + count * step ∧ value ≤ hi := by
  induction rounds generalizing v out with
  | zero =>
    have above : hi < v := by omega
    have none_left : ¬ ∃ count, value = v + count * step ∧ value ≤ hi := by
      rintro ⟨count,rfl,below⟩
      omega
    simp [addAll,none_left]
  | succ rounds ih =>
    by_cases below : v ≤ hi
    · rw [addAll,if_pos below,ih (by omega),mem_add,or_assoc]
      refine or_congr_right ?_
      constructor
      · rintro (rfl | ⟨count,same,inside⟩)
        · exact ⟨0,by simp,below⟩
        · exact ⟨count + 1,by rw [same,Nat.add_mul]; omega,inside⟩
      · rintro ⟨count,same,inside⟩
        cases count with
        | zero => exact .inl (by simpa using same)
        | succ count => exact .inr ⟨count,by rw [same,Nat.add_mul]; omega,inside⟩
    · have none_left : ¬ ∃ count, value = v + count * step ∧ value ≤ hi := by
        rintro ⟨count,rfl,inside⟩
        omega
      simp [addAll,below,none_left]

theorem space_strange (space : isSpace char = true) : char.isDigit = false ∧ char ≠ '*' ∧ char ≠ '-' ∧ char ≠ '/' := by
  refine ⟨?_,?_,?_,?_⟩
  · by_contra digit
    have inside : 48 ≤ char.val ∧ char.val ≤ 57 := by simpa [Char.isDigit] using digit
    simp only [isSpace,Bool.or_eq_true,Bool.and_eq_true,decide_eq_true_eq,List.mem_cons,List.not_mem_nil,or_false,
      ← UInt32.toNat_inj,UInt32.le_iff_toNat_le,UInt32.reduceToNat] at space inside
    omega
  all_goals
    rintro rfl
    exact absurd space (by decide)

-- What the loop makes of a part is what the grammar says of the part without its second slash.
theorem digits_clear (decimal : digits text = true) (strange : char.isDigit = false) : char ∉ text := by
  intro member
  have digit : char.isDigit = true := by simp_all [digits]
  exact absurd digit (by simp [strange])

theorem takeWhile_digits (decimal : digits text = true) : (text ++ '-'::rest).takeWhile Char.isDigit = text := by
  have all_digits : ∀ char ∈ text, char.isDigit = true := by simp_all [digits]
  rw [List.takeWhile_append_of_pos all_digits]
  simp [show Char.isDigit '-' = false from rfl]

theorem dropWhile_digits (decimal : digits text = true) : (text ++ '-'::rest).dropWhile Char.isDigit = '-'::rest := by
  have all_digits : ∀ char ∈ text, char.isDigit = true := by simp_all [digits]
  rw [List.dropWhile_append_of_pos all_digits]
  simp [show Char.isDigit '-' = false from rfl]

theorem range_exact : range text = some (a,b) ↔ digits a = true ∧ digits b = true ∧ text = a ++ '-'::b := by
  constructor
  · intro found
    unfold range at found
    split at found
    · next rest after =>
      split at found
      · next both =>
        have parts : digits (text.takeWhile Char.isDigit) = true ∧ digits rest = true := by simpa using both
        cases found
        refine ⟨parts.1,parts.2,?_⟩
        rw [← after,List.takeWhile_append_dropWhile]
      · cases found
    · cases found
  · rintro ⟨left,right,rfl⟩
    simp [range,takeWhile_digits left,dropWhile_digits left,left,right]

section
variable {min max : Nat}

theorem range_text_clear (valid : Range.Valid min max held) (strange : char.isDigit = false) (apart : char ≠ '*' ∧ char ≠ '-') : char ∉ held.text := by
  cases held with
  | all => simpa [Range.text] using apart.1
  | one n => exact digits_clear valid.1 strange
  | span a b =>
    intro member
    rcases List.mem_append.mp member with left | right
    · exact digits_clear valid.1 strange left
    · rcases List.mem_cons.mp right with same | right
      · exact apart.2 same
      · exact digits_clear valid.2.1 strange right

theorem item_text_clear {item : Item} (valid : item.Valid min max) (strange : char.isDigit = false) (apart : char ≠ '*' ∧ char ≠ '-' ∧ char ≠ '/') :
    char ∉ item.text := by
  intro member
  rcases List.mem_append.mp member with front | back
  · exact range_text_clear valid.1 strange ⟨apart.1,apart.2.1⟩ front
  · cases stepped : item.step with
    | none => simp [stepped] at back
    | some s =>
      rw [stepped] at back
      rcases List.mem_cons.mp back with same | back
      · exact apart.2.2 same
      · exact digits_clear (valid.2 s (by simp [stepped])).1 strange back

theorem item_pieces {item : Item} (valid : item.Valid min max) : item.text.splitOn '/' = item.range.text::item.step.toList := by
  have clear : '/' ∉ item.range.text := range_text_clear valid.1 rfl (by decide)
  unfold Item.text
  cases stepped : item.step with
  | none => simpa using List.splitOn_eq_singleton clear
  | some s =>
    have last : '/' ∉ s := digits_clear (valid.2 s (by simp [stepped])).1 rfl
    have cut := List.splitOn_append_cons_self_of_not_mem clear s
    simpa [List.splitOn_eq_singleton last] using cut

theorem bounds_text {item : Item} (valid : item.Valid min max) : bounds min max item.range.text item.step = some (item.first min,item.last max) := by
  have ranged := valid.1
  unfold Item.first Item.last
  cases shape : item.range with
  | all => rfl
  | one n =>
    rw [shape] at ranged
    have plain : n ≠ ['*'] := by
      rintro rfl
      exact absurd ranged.1 (by decide)
    simp [bounds,Range.text,plain,ranged.1]
  | span a b =>
    rw [shape] at ranged
    have dash : '-' ∈ a ++ '-'::b := by simp
    have plain : a ++ '-'::b ≠ ['*'] := by
      intro same
      exact absurd (same ▸ dash) (by decide)
    have undigited : digits (a ++ '-'::b) = false := by
      rw [Bool.eq_false_iff]
      exact fun wrong => digits_clear wrong rfl dash
    have read : range (a ++ '-'::b) = some (a,b) := range_exact.mpr ⟨ranged.1,ranged.2.1,rfl⟩
    simp [bounds,Range.text,plain,undigited,read]

theorem item_inside {item : Item} (ordered : min ≤ max) (valid : item.Valid min max) :
    min ≤ item.first min ∧ item.last max ≤ max ∧ item.first min ≤ item.last max := by
  have ranged := valid.1
  unfold Item.first Item.last
  cases shape : item.range with
  | all => exact ⟨le_refl _,le_refl _,ordered⟩
  | one n =>
    rw [shape] at ranged
    refine ⟨ranged.2.1,?_⟩
    dsimp only
    split
    · exact ⟨ranged.2.2,le_refl _⟩
    · exact ⟨le_refl _,ranged.2.2⟩
  | span a b =>
    rw [shape] at ranged
    exact ⟨ranged.2.2.1,ranged.2.2.2.2,ranged.2.2.2.1⟩

theorem cutPart_front (part : Text) : cutPart part <+: part := by
  have whole : joined '/' (part.splitOn '/') = part := List.intercalate_splitOn '/'
  unfold cutPart
  rcases pieces : part.splitOn '/' with _ | ⟨first,_ | ⟨second,_ | ⟨third,more⟩⟩⟩ <;> rw [pieces] at whole
  · exact ⟨part,rfl⟩
  · exact ⟨[],by simpa using whole⟩
  · exact ⟨[],by simpa using whole⟩
  · refine ⟨'/'::joined '/' (third::more),?_⟩
    rw [← whole]
    simp [joined,List.intercalate_cons_cons]

theorem parsePart_pieces {part held : Text} (pieces : (part.splitOn '/').take 2 = held::rest) :
    (part.splitOn '/').headD [] = held ∧ (part.splitOn '/')[1]? = rest.head? := by
  cases whole : part.splitOn '/' with
  | nil => simp [whole] at pieces
  | cons first more =>
    rw [whole] at pieces
    cases more with
    | nil =>
      cases pieces
      exact ⟨rfl,rfl⟩
    | cons second more =>
      cases pieces
      exact ⟨rfl,rfl⟩

theorem cutPart_pieces (part : Text) : (cutPart part).splitOn '/' = (part.splitOn '/').take 2 := by
  have clean : ∀ held ∈ (part.splitOn '/').take 2, '/' ∉ held := fun held member => splitOn_clear (List.mem_of_mem_take member)
  have some_piece : (part.splitOn '/').take 2 ≠ [] := by simp [List.splitOn_ne_nil]
  rw [cutPart,splitOn_joined clean,if_neg some_piece]

def added (min max : Nat) (item : Item) (out : List Nat) : List Nat :=
  addAll (item.last max) item.stride (item.last max + 1 - item.first min) (item.first min) out

theorem parsePart_reads {item : Item} (ordered : min ≤ max) (valid : item.Valid min max) (same : item.text = cutPart part) :
    parsePart min max part out = some (added min max item out) := by
  have pieces : (part.splitOn '/').take 2 = item.range.text::item.step.toList := by rw [← cutPart_pieces,← same,item_pieces valid]
  obtain ⟨front,back⟩ := parsePart_pieces pieces
  have stepPart : (part.splitOn '/')[1]? = item.step := by rw [back]; cases item.step <;> rfl
  have decimal : (item.step.any fun text => !digits text) = false := by
    cases stepped : item.step with
    | none => rfl
    | some s => simp [(valid.2 s (by simp [stepped])).1]
  have positive : ¬ item.stride < 1 := by
    unfold Item.stride
    cases stepped : item.step with
    | none => simp
    | some s => exact Nat.not_lt.mpr (valid.2 s (by simp [stepped])).2
  obtain ⟨above,below,forward⟩ := item_inside ordered valid
  have inside : ¬ (item.first min < min ∨ max < item.last max ∨ item.last max < item.first min) := by omega
  have shape : parsePart min max part out = (bounds min max item.range.text item.step).bind fun ends =>
      if ends.1 < min ∨ max < ends.2 ∨ ends.2 < ends.1 then none
      else some (addAll ends.2 item.stride (ends.2 + 1 - ends.1) ends.1 out) := by
    simp only [parsePart,front,stepPart,decimal]
    rw [if_neg Bool.false_ne_true]
    exact if_neg positive
  rw [shape,bounds_text valid,Option.bind_some,if_neg inside,added]

theorem bounds_read (found : bounds min max rangePart stepPart = some ends)
    (inside : ¬ (ends.1 < min ∨ max < ends.2 ∨ ends.2 < ends.1)) : ∃ held : Range, held.text = rangePart ∧ held.Valid min max := by
  unfold bounds at found
  split at found
  · next star => exact ⟨.all,star.symm,trivial⟩
  · split at found
    · next decimal =>
      cases found
      refine ⟨.one rangePart,rfl,decimal,by omega,?_⟩
      dsimp only at inside
      split at inside <;> omega
    · obtain ⟨⟨a,b⟩,read,rfl⟩ := Option.map_eq_some_iff.mp found
      obtain ⟨left,right,same⟩ := range_exact.mp read
      dsimp only at inside
      exact ⟨.span a b,same.symm,left,right,by omega,by omega,by omega⟩

theorem parsePart_read (found : parsePart min max part out = some next) :
    ∃ item : Item, item.Valid min max ∧ item.text = cutPart part := by
  obtain ⟨rangePart,rest,pieces⟩ := List.exists_cons_of_ne_nil (show (part.splitOn '/').take 2 ≠ [] by simp [List.splitOn_ne_nil])
  obtain ⟨front,back⟩ := parsePart_pieces pieces
  simp only [parsePart,front,back] at found
  split at found
  · cases found
  · next decimal =>
    split at found
    · cases found
    · next positive =>
      obtain ⟨ends,bounded,kept⟩ := Option.bind_eq_some_iff.mp found
      split at kept
      · cases kept
      · next inside =>
        obtain ⟨held,same,valid⟩ := bounds_read bounded inside
        refine ⟨⟨held,rest.head?⟩,⟨valid,?_⟩,?_⟩
        · intro s member
          have some_step : rest.head? = some s := member
          constructor
          · simpa [some_step] using decimal
          · rw [some_step] at positive
            exact Nat.not_lt.mp positive
        · have short : rest.length ≤ 1 := by
            have length := congrArg List.length pieces
            simp at length
            omega
          rw [cutPart,pieces,Item.text,same]
          cases rest with
          | nil => simp [joined]
          | cons second more =>
            obtain rfl : more = [] := by simpa using short
            simp [joined,List.intercalate_cons_cons]

theorem mem_added {item : Item} (valid : item.Valid min max) :
    value ∈ added min max item out ↔ value ∈ out ∨ item.Has min max value := by
  have positive : 1 ≤ item.stride := by
    unfold Item.stride
    cases stepped : item.step with
    | none => exact le_refl _
    | some s => exact (valid.2 s (by simp [stepped])).2
  exact mem_addAll positive (le_refl _)

theorem parseParts_reads {items : List Item} {out : List Nat} (ordered : min ≤ max) (valid : ∀ item ∈ items, item.Valid min max)
    (same : items.map Item.text = parts.map cutPart) :
    ∃ next, parseParts min max parts out = some next ∧ ∀ value, value ∈ next ↔ value ∈ out ∨ ∃ item ∈ items, item.Has min max value := by
  induction parts generalizing items out with
  | nil =>
    obtain rfl : items = [] := by simpa using same
    exact ⟨out,rfl,by simp⟩
  | cons part parts ih =>
    cases items with
    | nil => simp at same
    | cons item items =>
      obtain ⟨front,back⟩ := List.cons_eq_cons.mp same
      have head := valid item List.mem_cons_self
      obtain ⟨next,run,means⟩ := @ih items (added min max item out) (fun held member => valid held (List.mem_cons_of_mem _ member)) back
      refine ⟨next,by rw [parseParts,parsePart_reads ordered head front]; exact run,fun value => ?_⟩
      rw [means,mem_added head,or_assoc]
      simp

theorem parseParts_read (found : parseParts min max parts out = some next) :
    ∃ items : List Item, (∀ item ∈ items, item.Valid min max) ∧ items.map Item.text = parts.map cutPart := by
  induction parts generalizing out with
  | nil => exact ⟨[],by simp⟩
  | cons part parts ih =>
    obtain ⟨middle,first,later⟩ := Option.bind_eq_some_iff.mp found
    obtain ⟨item,valid,same⟩ := parsePart_read first
    obtain ⟨items,all_valid,all_same⟩ := ih later
    exact ⟨item::items,List.forall_mem_cons.mpr ⟨valid,all_valid⟩,by rw [List.map_cons,List.map_cons,same,all_same]⟩

theorem cutWord_parts (word : Text) : (cutWord word).splitOn ',' = (word.splitOn ',').map cutPart := by
  have clean : ∀ held ∈ (word.splitOn ',').map cutPart, ',' ∉ held := by
    intro held member
    obtain ⟨part,listed,rfl⟩ := List.mem_map.mp member
    exact fun inside => splitOn_clear listed ((cutPart_front part).subset inside)
  rw [cutWord,splitOn_joined clean,if_neg (by simp [List.splitOn_ne_nil])]

theorem fieldText_parts (valid : FieldValid min max items) : (fieldText items).splitOn ',' = items.map Item.text := by
  have clean : ∀ held ∈ items.map Item.text, ',' ∉ held := by
    intro held member
    obtain ⟨item,listed,rfl⟩ := List.mem_map.mp member
    exact item_text_clear (valid.2 item listed) rfl (by decide)
  rw [fieldText,splitOn_joined clean,if_neg (by simpa using valid.1)]

theorem parseField_reads (ordered : min ≤ max) (valid : FieldValid min max items) (same : fieldText items = cutWord word) :
    ∃ set, parseField min max word = some set ∧ Means min max set items := by
  have parts : items.map Item.text = (word.splitOn ',').map cutPart := by rw [← cutWord_parts,← same,fieldText_parts valid]
  obtain ⟨set,run,means⟩ := @parseParts_reads min max _ items [] ordered valid.2 parts
  have means : Means min max set items := fun value => by simpa using means value
  have some_value : set ≠ [] := by
    obtain ⟨item,more,rfl⟩ := List.exists_cons_of_ne_nil valid.1
    obtain ⟨above,below,inside⟩ := item_inside ordered (valid.2 item List.mem_cons_self)
    exact List.ne_nil_of_mem ((means (item.first min)).mpr ⟨item,List.mem_cons_self,0,by simp,inside⟩)
  exact ⟨set,by simp [parseField,run,some_value],means⟩

theorem parseField_read {min max : Nat} {word : Text} {set : List Nat} (found : parseField min max word = some set) :
    ∃ items, FieldValid min max items ∧ fieldText items = cutWord word := by
  obtain ⟨run,_⟩ := Option.filter_eq_some_iff.mp found
  obtain ⟨items,valid,same⟩ := parseParts_read run
  have some_item : items ≠ [] := by
    rintro rfl
    exact List.splitOn_ne_nil ',' word (List.map_eq_nil_iff.mp same.symm)
  exact ⟨items,⟨some_item,valid⟩,by rw [fieldText,same,cutWord]⟩

theorem fieldText_clean (valid : FieldValid min max items) : cutWord (fieldText items) = fieldText items := by
  have same : ∀ item ∈ items, cutPart item.text = item.text := by
    intro item listed
    have whole : joined '/' (item.text.splitOn '/') = item.text := List.intercalate_splitOn '/'
    rw [item_pieces (valid.2 item listed)] at whole
    rw [cutPart,item_pieces (valid.2 item listed)]
    cases stepped : item.step <;> simpa [stepped] using whole
  rw [cutWord,fieldText_parts valid,fieldText]
  congr 1
  simpa using same

theorem fieldText_word (valid : FieldValid min max items) : fieldText items ≠ [] ∧ ∀ char ∈ fieldText items, isSpace char = false := by
  constructor
  · intro empty
    have parts := fieldText_parts valid
    rw [empty] at parts
    obtain ⟨item,more,rfl⟩ := List.exists_cons_of_ne_nil valid.1
    have first : [] = item.text := (List.cons_eq_cons.mp parts).1
    have pieces := item_pieces (valid.2 item List.mem_cons_self)
    rw [← first] at pieces
    have empty_range : [] = item.range.text := (List.cons_eq_cons.mp pieces).1
    have ranged := (valid.2 item List.mem_cons_self).1
    cases shape : item.range <;> rw [shape] at empty_range ranged
    · cases empty_range
    · obtain rfl := show [] = _ from empty_range
      exact absurd ranged.1 (by decide)
    · simp [Range.text] at empty_range
  · intro char member
    by_contra space
    rcases joined_mem member with rfl | ⟨text,listed,inside⟩
    · exact space rfl
    · obtain ⟨item,chosen,rfl⟩ := List.mem_map.mp listed
      have strange : char.isDigit = false ∧ char ≠ '*' ∧ char ≠ '-' ∧ char ≠ '/' := space_strange (by simpa using space)
      exact item_text_clear (valid.2 item chosen) strange.1 strange.2 inside

end

theorem parseCron_reads {schedule : Schedule} (valid : schedule.Valid) (same : schedule.texts = (words (trim expr).toList).map cutWord) :
    ∃ fields, parseCron expr = some fields ∧ Denotes fields schedule := by
  obtain ⟨minute,hour,dom,month,dow⟩ := valid
  generalize whole : words (trim expr).toList = list at same
  rcases list with _ | ⟨one,_ | ⟨two,_ | ⟨three,_ | ⟨four,_ | ⟨five,_ | ⟨six,more⟩⟩⟩⟩⟩⟩ <;> simp [Schedule.texts] at same
  obtain ⟨first,second,third,fourth,fifth⟩ := same
  obtain ⟨minutes,one_run,one_means⟩ := parseField_reads (by decide) minute first
  obtain ⟨hours,two_run,two_means⟩ := parseField_reads (by decide) hour second
  obtain ⟨doms,three_run,three_means⟩ := parseField_reads (by decide) dom third
  obtain ⟨months,four_run,four_means⟩ := parseField_reads (by decide) month fourth
  obtain ⟨dows,five_run,five_means⟩ := parseField_reads (by decide) dow fifth
  refine ⟨⟨minutes,hours,doms,months,dows,three ≠ ['*'],five ≠ ['*']⟩,?_,one_means,two_means,three_means,four_means,five_means⟩
  simp only [parseCron,whole,one_run,two_run,three_run,four_run,five_run]

theorem parseCron_read (found : parseCron expr = some fields) :
    ∃ schedule : Schedule, schedule.Valid ∧ schedule.texts = (words (trim expr).toList).map cutWord := by
  unfold parseCron at found
  split at found
  · next minute hour dom month dow whole =>
    split at found
    · next one two three four five =>
      obtain ⟨minutes,one_valid,one_same⟩ := parseField_read one
      obtain ⟨hours,two_valid,two_same⟩ := parseField_read two
      obtain ⟨doms,three_valid,three_same⟩ := parseField_read three
      obtain ⟨months,four_valid,four_same⟩ := parseField_read four
      obtain ⟨dows,five_valid,five_same⟩ := parseField_read five
      refine ⟨⟨minutes,hours,doms,months,dows⟩,⟨one_valid,two_valid,three_valid,four_valid,five_valid⟩,?_⟩
      rw [whole,Schedule.texts,one_same,two_same,three_same,four_same,five_same]
      rfl
    · cases found
  · cases found

theorem texts_words {schedule : Schedule} (valid : schedule.Valid) :
    ∀ text ∈ schedule.texts, (text ≠ [] ∧ ∀ char ∈ text, isSpace char = false) ∧ cutWord text = text := by
  obtain ⟨minute,hour,dom,month,dow⟩ := valid
  intro text member
  simp only [Schedule.texts,List.mem_cons,List.not_mem_nil,or_false] at member
  rcases member with rfl | rfl | rfl | rfl | rfl
  · exact ⟨fieldText_word minute,fieldText_clean minute⟩
  · exact ⟨fieldText_word hour,fieldText_clean hour⟩
  · exact ⟨fieldText_word dom,fieldText_clean dom⟩
  · exact ⟨fieldText_word month,fieldText_clean month⟩
  · exact ⟨fieldText_word dow,fieldText_clean dow⟩

theorem reads_texts (reads : Reads expr schedule) : words (trim expr).toList = schedule.texts :=
  apart_words reads.2 fun text member => (texts_words reads.1 text member).1

theorem reads_clean (reads : Reads expr schedule) : Clean expr := by
  intro word member
  rw [reads_texts reads] at member
  exact (texts_words reads.1 word member).2

theorem clean_words (clean : Clean expr) : (words (trim expr).toList).map cutWord = words (trim expr).toList :=
  (List.map_congr_left clean).trans (List.map_id _)

theorem clean_exact (clean : Clean expr) : Exact expr := by
  have same := clean_words clean
  have means : ∀ schedule, Reads expr schedule → ∃ fields, parseCron expr = some fields ∧ Denotes fields schedule :=
    fun schedule reads => parseCron_reads reads.1 (by rw [same,reads_texts reads])
  refine ⟨⟨?_,?_⟩,?_⟩
  · intro accepted
    obtain ⟨fields,found⟩ := Option.isSome_iff_exists.mp accepted
    obtain ⟨schedule,valid,texts⟩ := parseCron_read found
    refine ⟨schedule,valid,?_⟩
    rw [texts,same]
    exact words_apart _
  · rintro ⟨schedule,reads⟩
    obtain ⟨fields,found,_⟩ := means schedule reads
    rw [found]
    rfl
  · intro fields found schedule reads
    obtain ⟨others,run,denotes⟩ := means schedule reads
    obtain rfl : others = fields := Option.some.inj (run.symm.trans found)
    exact denotes

theorem grammar_exact (expr : String) :
    Exact expr ↔ Clean expr ∨ ∀ schedule : Schedule, schedule.Valid → schedule.texts ≠ (words (trim expr).toList).map cutWord := by
  constructor
  · intro exact_here
    by_contra neither
    obtain ⟨unclean,some_schedule⟩ := not_or.mp neither
    obtain ⟨schedule,valid,same⟩ : ∃ schedule : Schedule, schedule.Valid ∧ schedule.texts = (words (trim expr).toList).map cutWord := by
      simpa using some_schedule
    obtain ⟨fields,found,_⟩ := parseCron_reads valid same
    obtain ⟨other,reads⟩ := exact_here.1.mp (by rw [found]; rfl)
    exact unclean (reads_clean reads)
  · rintro (clean | none_fits)
    · exact clean_exact clean
    · have refused : parseCron expr = none := by
        rw [Option.eq_none_iff_forall_not_mem]
        intro fields found
        obtain ⟨schedule,valid,same⟩ := parseCron_read found
        exact none_fits schedule valid same
      have unread : ¬ ∃ schedule, Reads expr schedule := by
        rintro ⟨schedule,reads⟩
        refine none_fits schedule reads.1 ?_
        rw [clean_words (reads_clean reads),reads_texts reads]
      exact ⟨by simp [refused,unread],by simp [refused]⟩

-- A second slash and what follows it are dropped: this one runs every five minutes.
theorem second_slash : ¬ Exact "*/5/9 * * * *" := by
  intro exact_here
  obtain ⟨schedule,reads⟩ := exact_here.1.mp (by decide +kernel)
  exact absurd (reads_clean reads _ (List.mem_cons_self (a := "*/5/9".toList) (l := [['*'],['*'],['*'],['*']]))) (by decide)

end Zveltio.Cron

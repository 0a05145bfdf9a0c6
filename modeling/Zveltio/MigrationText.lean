import Zveltio.IpText
import Zveltio.RowRules
import Mathlib.Data.List.TakeWhile
import Mathlib.Data.Bool.AllAny
namespace Zveltio.MigrationText
open IpText (Text joined joined_append splitOn_clear)
open RowRules (isSpace)

-- What ^ and $ take for the end of a line; all of it is white space as well.
def lineEnd (char : Char) : Bool := char = '\n' || char = '\x0d' || char = '\u2028' || char = '\u2029'

def trim (text : Text) : Text := ((text.dropWhile isSpace).reverse.dropWhile isSpace).reverse

-- \s*$ at the front of a text: how much of it, as much as it can be.
def trailing : Text → Option Nat
  | [] => some 0
  | char::rest =>
    if isSpace char then
      match trailing rest with
      | some count => some (count + 1)
      | none => if lineEnd char then some 0 else none
    else none

def down (word : Text) : Bool := word.map Char.toUpper = "DOWN".toList

-- --\s*DOWN\s*$ at the front of a text, in any case: over how much it goes.
def downMarker : Text → Option Nat
  | '-':: '-'::rest =>
    let space := rest.takeWhile isSpace
    let word := rest.dropWhile isSpace
    if down (word.take 4) then (trailing (word.drop 4)).map fun count => 2 + space.length + 4 + count else none
  | _ => none

-- The places the marker matches at, from left to right, with how far each goes. start: here a line begins.
def markersFrom (start : Bool) (skip offset : Nat) : Text → List (Nat × Nat)
  | [] => []
  | char::rest =>
    match skip with
    | skip + 1 => markersFrom (lineEnd char) skip (offset + 1) rest
    | 0 =>
      match if start then downMarker (char::rest) else none with
      | some count => (offset,count)::markersFrom (lineEnd char) (count - 1) (offset + 1) rest
      | none => markersFrom (lineEnd char) 0 (offset + 1) rest

def markers (text : Text) : List (Nat × Nat) := markersFrom true 0 0 text

-- content.split(downMarker)
def cut (text : Text) (start : Nat) : List (Nat × Nat) → List Text
  | [] => [text.drop start]
  | (place,count)::rest => (text.drop start).take (place - start)::cut text (place + count) rest

structure ParsedMigration where
  up : Text
  down : Option Text
  deriving DecidableEq

def orNull (text : Text) : Option Text := if text = [] then none else some text

def parseMigrationFile (content : Text) : ParsedMigration :=
  let parts := cut content 0 (markers content)
  if parts.length = 1 then ⟨trim (parts[0]?.getD []),none⟩
  else ⟨trim (parts[0]?.getD []),orNull (trim (parts[1]?.getD []))⟩

-- The loader's; the SDK has the same text.
def parseMigrationSql (raw : Text) : ParsedMigration :=
  match (markers raw).head? with
  | none => ⟨trim raw,none⟩
  | some (downIdx,_) =>
    let downSection := raw.drop downIdx
    let downBody := match downSection.findIdx? (· = '\n') with
      | some firstNewline => trim (downSection.drop (firstNewline + 1))
      | none => []
    ⟨trim (raw.take downIdx),orNull downBody⟩

section
-- What may stand between the dashes and the word.
variable (gap : Text → Bool)

-- A line that is the marker and nothing else, blanks around it.
def isMarker (line : Text) : Bool :=
  let core := trim line
  "--".toList.isPrefixOf core && 6 ≤ core.length && down (core.drop (core.length - 4)) && gap ((core.drop 2).take (core.length - 6))

-- What the file says: before the first such line, and after it.
def sections (text : Text) : ParsedMigration :=
  let lines := text.splitOn '\n'
  match lines.findIdx? (isMarker gap) with
  | none => ⟨trim text,none⟩
  | some line => ⟨trim (joined '\n' (lines.take line)),orNull (trim (joined '\n' (lines.drop (line + 1))))⟩

def markerPlace (text : Text) : Option Nat :=
  let lines := text.splitOn '\n'
  (lines.findIdx? (isMarker gap)).map fun line =>
    (if line = 0 then 0 else (joined '\n' (lines.take line)).length + 1) + ((lines[line]?.getD []).takeWhile isSpace).length

-- The regular expression matches once, at the first marker line; without one it matches nowhere.
def OneMarker (text : Text) : Prop := (markers text).map Prod.fst = (markerPlace gap text).toList

end

def solid (text : Text) : Text := text.filter fun char => !isSpace char

theorem solid_append (first second : Text) : solid (first ++ second) = solid first ++ solid second := List.filter_append ..

theorem solid_blank (blank : ∀ char ∈ text, isSpace char = true) : solid text = [] :=
  List.filter_eq_nil_iff.mpr fun char member => by simp [blank char member]

theorem solid_dropWhile (text : Text) : solid (text.dropWhile isSpace) = solid text := by
  have whole : solid text = solid (text.takeWhile isSpace) ++ solid (text.dropWhile isSpace) := by
    rw [← solid_append,List.takeWhile_append_dropWhile]
  rw [whole,solid_blank fun char member => List.mem_takeWhile_imp member,List.nil_append]

theorem solid_reverse (text : Text) : solid text.reverse = (solid text).reverse := List.filter_reverse ..

theorem solid_trim (text : Text) : solid (trim text) = solid text := by
  rw [trim,solid_reverse,solid_dropWhile,solid_reverse,solid_dropWhile,List.reverse_reverse]

theorem trim_front (blank : ∀ char ∈ front, isSpace char = true) (text : Text) : trim (front ++ text) = trim text := by
  rw [trim,List.dropWhile_append_of_pos blank,trim]

theorem trim_blank (blank : ∀ char ∈ text, isSpace char = true) : trim text = [] := by
  have whole := trim_front blank []
  rwa [List.append_nil] at whole

theorem trim_back (blank : ∀ char ∈ back, isSpace char = true) (text : Text) : trim (text ++ back) = trim text := by
  rw [trim,trim]
  cases rest : text.dropWhile isSpace with
  | nil =>
    have all : ∀ char ∈ text, isSpace char = true := List.dropWhile_eq_nil_iff.mp rest
    rw [List.dropWhile_append_of_pos all,List.dropWhile_eq_nil_iff.mpr blank]
  | cons char more =>
    have kept : (text ++ back).dropWhile isSpace = text.dropWhile isSpace ++ back := by
      rw [List.dropWhile_append,rest]
      rfl
    rw [kept,rest,List.reverse_append,List.dropWhile_append_of_pos fun char member => blank char (List.mem_reverse.mp member)]

theorem orNull_inj (same : orNull first = orNull second) : first = second := by
  unfold orNull at same
  split at same
  · split at same
    · simp_all
    · cases same
  · split at same
    · cases same
    · exact Option.some.inj same

theorem take_solid {text : Text} {first second : Nat} (one : text[first]? = some char) (other : text[second]? = some mark)
    (here : isSpace char = false) (there : isSpace mark = false) (same : solid (text.take first) = solid (text.take second)) : first = second := by
  have longer : ∀ less more : Nat, less < more → ∀ char, text[less]? = some char → isSpace char = false →
      solid (text.take less) ≠ solid (text.take more) := by
    intro less more fewer char at_less solid_char equal
    have cut : text.take more = text.take less ++ char::(text.drop (less + 1)).take (more - less - 1) := by
      have split : text.take more = text.take less ++ (text.drop less).take (more - less) := by
        rw [← List.take_add]
        congr 1
        omega
      rw [split,List.drop_eq_getElem?_toList_append,at_less]
      obtain ⟨count,rfl⟩ : ∃ count, more = less + 1 + count := ⟨more - less - 1,by omega⟩
      rw [show less + 1 + count - less = count + 1 by omega]
      rfl
    rw [cut,solid_append] at equal
    have lengths := congrArg List.length equal
    simp [solid,solid_char] at lengths
  rcases Nat.lt_trichotomy first second with less | same_place | more
  · exact absurd same (longer first second less char one here)
  · exact same_place
  · exact absurd same.symm (longer second first more mark other there)

theorem trailing_blank (found : trailing text = some count) : ∀ char ∈ text.take count, isSpace char = true := by
  induction text generalizing count with
  | nil => simp
  | cons char rest ih =>
    unfold trailing at found
    split at found
    · rename_i blank
      cases more : trailing rest with
      | some inner =>
        rw [more] at found
        cases found
        intro one member
        rcases List.mem_cons.mp member with rfl | inside
        · exact blank
        · exact ih more one inside
      | none =>
        rw [more] at found
        simp only at found
        split at found
        · cases found
          simp
        · cases found
    · cases found

theorem markersFrom_spec {start : Bool} {skip offset : Nat} (member : (place,count) ∈ markersFrom start skip offset text) :
    offset + skip ≤ place ∧ downMarker (text.drop (place - offset)) = some count := by
  induction text generalizing start skip offset with
  | nil => cases member
  | cons char rest ih =>
    have later : ∀ {start skip}, (place,count) ∈ markersFrom start skip (offset + 1) rest →
        offset + 1 + skip ≤ place ∧ downMarker ((char::rest).drop (place - offset)) = some count := by
      intro start skip there
      obtain ⟨bound,found⟩ := ih there
      refine ⟨bound,?_⟩
      rw [show place - offset = place - (offset + 1) + 1 by omega]
      exact found
    unfold markersFrom at member
    split at member
    · obtain ⟨bound,found⟩ := later member
      exact ⟨by omega,found⟩
    · split at member
      · rename_i found
        rcases List.mem_cons.mp member with same | there
        · cases same
          refine ⟨Nat.le_refl _,?_⟩
          rw [Nat.sub_self]
          split at found
          · exact found
          · cases found
        · obtain ⟨bound,found⟩ := later there
          exact ⟨by omega,found⟩
      · obtain ⟨bound,found⟩ := later member
        exact ⟨by omega,found⟩

theorem markersFrom_apart {start : Bool} {skip offset : Nat} (found : markersFrom start skip offset text = (place,count)::more) :
    ∀ other ∈ more, place + count ≤ other.1 := by
  induction text generalizing start skip offset with
  | nil => cases found
  | cons char rest ih =>
    unfold markersFrom at found
    split at found
    · exact ih found
    · split at found
      · rename_i length _
        obtain ⟨same,tail⟩ := List.cons.inj found
        cases same
        intro other member
        rw [← tail] at member
        have bound := (markersFrom_spec (show (other.1,other.2) ∈ _ from member)).1
        omega
      · exact ih found

theorem markers_spec (member : (place,count) ∈ markers text) : downMarker (text.drop place) = some count := (markersFrom_spec member).2

theorem downMarker_dashes (found : downMarker text = some count) : ∃ rest, text = '-':: '-'::rest := by
  unfold downMarker at found
  split at found
  · exact ⟨_,rfl⟩
  · cases found

theorem down_length (word : down text = true) : text.length = 4 := by
  have lengths := congrArg List.length (of_decide_eq_true word)
  simpa using lengths

theorem space_upper (blank : isSpace char = true) : char.toUpper = char := by
  unfold Char.toUpper
  rw [dif_neg]
  rintro ⟨low,high⟩
  simp only [isSpace,Bool.or_eq_true,decide_eq_true_eq,Bool.and_eq_true] at blank
  rcases blank with listed | ⟨above,_⟩
  · have apart : ∀ value ∈ [0x9,0xa,0xb,0xc,0xd,0x20,0xa0,0x1680,0x2028,0x2029,0x202f,0x205f,0x3000,(0xfeff : UInt32)],
        ¬ (value ≥ 'a'.val ∧ value ≤ 'z'.val) := List.all_iff_forall_prop.mp (by decide)
    exact apart char.val listed ⟨low,high⟩
  · have below : char.val ≤ 122 := high
    have far := UInt32.le_iff_toNat_le.mp (UInt32.le_trans above below)
    exact absurd far (by decide)

theorem down_solid (word : down text = true) : ∀ char ∈ text, isSpace char = false := by
  intro char member
  have upper : char.toUpper ∈ "DOWN".toList := by
    rw [← of_decide_eq_true word]
    exact List.mem_map_of_mem member
  cases blank : isSpace char with
  | false => rfl
  | true =>
    rw [space_upper blank] at upper
    have solid_word : ∀ letter ∈ ['D','O','W','N'], isSpace letter = false := by
      intro letter listed
      simp only [List.mem_cons,List.not_mem_nil,or_false] at listed
      rcases listed with rfl | rfl | rfl | rfl <;> decide
    rw [solid_word char upper] at blank
    cases blank

-- What a match at the dashes of such a text leaves is, but for blanks, what stands behind the word.
theorem downMarker_rest {space word rest : Text} (blank : ∀ char ∈ space, isSpace char = true) (named : down word = true)
    (found : downMarker ('-':: '-'::(space ++ (word ++ rest))) = some count) :
    trim (('-':: '-'::(space ++ (word ++ rest))).drop count) = trim rest := by
  have length := down_length named
  obtain ⟨first,more,starts⟩ : ∃ first more, word = first::more := List.exists_cons_of_length_pos (by omega)
  have solid_first := down_solid named first (starts ▸ List.mem_cons_self ..)
  have taken : (space ++ (word ++ rest)).takeWhile isSpace = space := by
    rw [List.takeWhile_append_of_pos blank,starts,List.cons_append,List.takeWhile_cons_of_neg (by simp [solid_first]),List.append_nil]
  have dropped : (space ++ (word ++ rest)).dropWhile isSpace = word ++ rest := by
    rw [List.dropWhile_append_of_pos blank,starts,List.cons_append,List.dropWhile_cons_of_neg (by simp [solid_first])]
  have four : (word ++ rest).take 4 = word := by rw [← length,List.take_left]
  have behind : (word ++ rest).drop 4 = rest := by rw [← length,List.drop_left]
  simp only [downMarker,taken,dropped,four,behind,named,if_true,Option.map_eq_some_iff] at found
  obtain ⟨inner,found,rfl⟩ := found
  have split : ('-':: '-'::(space ++ (word ++ rest))).drop (2 + space.length + 4 + inner) = rest.drop inner := by
    rw [show 2 + space.length + 4 + inner = (space.length + (word.length + inner)) + 1 + 1 by omega,List.drop_succ_cons,List.drop_succ_cons,
      List.drop_length_add_append,List.drop_length_add_append]
  rw [split]
  conv_rhs => rw [← List.take_append_drop inner rest]
  exact (trim_front (trailing_blank found) _).symm

theorem trim_parts (text : Text) : ∃ tail, (∀ char ∈ tail, isSpace char = true) ∧ text = text.takeWhile isSpace ++ (trim text ++ tail) := by
  refine ⟨((text.dropWhile isSpace).reverse.takeWhile isSpace).reverse,?_,?_⟩
  · intro char member
    exact List.mem_takeWhile_imp (List.mem_reverse.mp member)
  · rw [trim,← List.reverse_append,List.takeWhile_append_dropWhile,List.reverse_reverse,List.takeWhile_append_dropWhile]

section
variable {gap : Text → Bool}

theorem isMarker_parts (marker : isMarker gap line = true) : ∃ space word tail,
    line = line.takeWhile isSpace ++ '-':: '-'::(space ++ (word ++ tail)) ∧ gap space = true ∧ down word = true ∧ ∀ char ∈ tail, isSpace char = true := by
  obtain ⟨tail,blank,whole⟩ := trim_parts line
  simp only [isMarker,Bool.and_eq_true,decide_eq_true_eq,List.isPrefixOf_iff_prefix] at marker
  obtain ⟨⟨⟨⟨rest,dashes⟩,long⟩,named⟩,between⟩ := marker
  refine ⟨_,_,tail,?_,between,named,blank⟩
  have two : (trim line).drop 2 = rest := by rw [← dashes]; rfl
  have split : rest = rest.take ((trim line).length - 6) ++ (trim line).drop ((trim line).length - 4) := by
    have back : (trim line).drop ((trim line).length - 4) = rest.drop ((trim line).length - 6) := by
      rw [← two,List.drop_drop]
      congr 1
      omega
    rw [back,List.take_append_drop]
  conv_lhs => rw [whole,← dashes]
  rw [two]
  conv_lhs => rw [split]
  simp

theorem marker_found (found : (text.splitOn '\n').findIdx? (isMarker gap) = some place) : ∃ before line after,
    text = before ++ (line ++ after) ∧ isMarker gap line = true ∧ '\n' ∉ line ∧ (text.splitOn '\n')[place]? = some line ∧
    (∃ blanks, before = joined '\n' ((text.splitOn '\n').take place) ++ blanks ∧ (∀ char ∈ blanks, isSpace char = true) ∧
      before.length = if place = 0 then 0 else (joined '\n' ((text.splitOn '\n').take place)).length + 1) ∧
    (after = [] ∧ (text.splitOn '\n').drop (place + 1) = [] ∨ after = '\n'::joined '\n' ((text.splitOn '\n').drop (place + 1))) := by
  have whole : joined '\n' (text.splitOn '\n') = text := List.intercalate_splitOn '\n'
  have clear : ∀ part ∈ text.splitOn '\n', '\n' ∉ part := fun _ member => splitOn_clear member
  generalize text.splitOn '\n' = lines at *
  obtain ⟨bound,marker,_⟩ := List.findIdx?_eq_some_iff_getElem.mp found
  have cut : lines = lines.take place ++ lines[place]::lines.drop (place + 1) := by simp
  have tail : ∃ after, joined '\n' (lines[place]::lines.drop (place + 1)) = lines[place] ++ after ∧
      (after = [] ∧ lines.drop (place + 1) = [] ∨ after = '\n'::joined '\n' (lines.drop (place + 1))) := by
    cases rest : lines.drop (place + 1) with
    | nil => exact ⟨[],by simp [joined],.inl ⟨rfl,rfl⟩⟩
    | cons next more => exact ⟨_,by simp [joined],.inr rfl⟩
  obtain ⟨after,same,ends⟩ := tail
  by_cases first : place = 0
  · refine ⟨[],lines[place],after,?_,marker,clear _ (List.getElem_mem bound),List.getElem?_eq_getElem bound,⟨[],by simp [first,joined],by simp,by simp [first]⟩,ends⟩
    rw [List.nil_append,← same,← whole]
    conv_lhs => rw [cut]
    simp [first]
  · have some_line : lines.take place ≠ [] := by
      intro none
      have := congrArg List.length none
      simp only [List.length_take,List.length_nil] at this
      omega
    refine ⟨joined '\n' (lines.take place) ++ ['\n'],lines[place],after,?_,marker,clear _ (List.getElem_mem bound),List.getElem?_eq_getElem bound,
      ⟨['\n'],rfl,List.forall_mem_singleton.mpr (by decide),by simp [first]⟩,ends⟩
    rw [← same,← whole]
    conv_lhs => rw [cut,joined_append some_line (List.cons_ne_nil _ _)]
    simp

-- The marker line in the text: its dashes, and what the file has before and after it.
structure Marked (gap : Text → Bool) (text : Text) (place : Nat) (core after : Text) : Prop where
  found : markerPlace gap text = some place
  split : text.drop place = core ++ after
  dashes : ∃ space word tail, core = '-':: '-'::(space ++ (word ++ tail)) ∧ gap space = true ∧ down word = true ∧ ∀ char ∈ tail, isSpace char = true
  newline : '\n' ∉ core
  up : (sections gap text).up = trim (text.take place)
  down : ∃ body, (sections gap text).down = orNull (trim body) ∧ (after = [] ∧ body = [] ∨ after = '\n'::body)

theorem marked (found : (text.splitOn '\n').findIdx? (isMarker gap) = some line) : ∃ place core after, Marked gap text place core after := by
  obtain ⟨before,whole_line,after,whole,marker,clear,at_line,⟨blanks,before_same,before_blank,before_length⟩,ends⟩ := marker_found found
  obtain ⟨space,word,tail,parts,between,named,blank⟩ := isMarker_parts marker
  have place : before.length + (whole_line.takeWhile isSpace).length = (before ++ whole_line.takeWhile isSpace).length := by simp
  have split : text = (before ++ whole_line.takeWhile isSpace) ++ ('-':: '-'::(space ++ (word ++ tail)) ++ after) := by
    rw [whole]
    conv_lhs => rw [parts]
    simp
  refine ⟨before.length + (whole_line.takeWhile isSpace).length,'-':: '-'::(space ++ (word ++ tail)),after,?_,?_,⟨space,word,tail,rfl,between,named,blank⟩,?_,?_,?_⟩
  · simp [markerPlace,found,at_line,before_length]
  · rw [place]
    conv_lhs => rw [split]
    exact List.drop_left
  · exact fun member => clear (parts ▸ List.mem_append_right _ member)
  · rw [place]
    conv_rhs => rw [split]
    rw [List.take_left,trim_back fun char member => List.mem_takeWhile_imp member,before_same,trim_back before_blank]
    simp [sections,found]
  · refine ⟨joined '\n' ((text.splitOn '\n').drop (line + 1)),by simp [sections,found],?_⟩
    rcases ends with ⟨none,no_line⟩ | more
    · exact .inl ⟨none,by rw [no_line]; rfl⟩
    · exact .inr more

theorem Marked.dash (marked : Marked gap text place core after) : text[place]? = some '-' := by
  obtain ⟨space,word,tail,same,_⟩ := marked.dashes
  have split := marked.split
  rw [same] at split
  have first : (text.drop place)[0]? = some '-' := by rw [split]; rfl
  rwa [List.getElem?_drop,Nat.add_zero] at first

theorem Marked.behind (marked : Marked gap text place core after) :
    (match (text.drop place).findIdx? (· = '\n') with
      | some firstNewline => trim ((text.drop place).drop (firstNewline + 1))
      | none => []) = trim after := by
  have none_before : core.findIdx? (· = '\n') = none :=
    List.findIdx?_eq_none_iff.mpr fun char member => decide_eq_false fun same => marked.newline (same ▸ member)
  obtain ⟨body,_,⟨rfl,_⟩ | rfl⟩ := marked.down
  · rw [marked.split,List.append_nil,none_before]
    rfl
  · have here : (core ++ '\n'::body).findIdx? (· = '\n') = some core.length := by
      rw [List.findIdx?_append,none_before]
      simp [List.findIdx?_cons]
    have blank : ∀ char ∈ ['\n'], isSpace char = true := List.forall_mem_singleton.mpr (by decide)
    rw [marked.split,here]
    simp only [List.drop_length_add_append,List.drop_succ_cons,List.drop_zero]
    exact (trim_front blank body).symm

theorem Marked.below (marked : Marked gap text place core after) : (sections gap text).down = orNull (trim after) := by
  have blank : ∀ char ∈ ['\n'], isSpace char = true := List.forall_mem_singleton.mpr (by decide)
  obtain ⟨body,same,⟨rfl,rfl⟩ | rfl⟩ := marked.down
  · exact same
  · rw [same]
    exact congrArg orNull (trim_front blank body).symm

theorem Marked.left (marked : Marked gap text place core after) (blank : ∀ space, gap space = true → ∀ char ∈ space, isSpace char = true)
    (found : downMarker (text.drop place) = some count) : trim (text.drop (place + count)) = trim after := by
  obtain ⟨space,word,tail,same,between,named,behind⟩ := marked.dashes
  have split : text.drop place = '-':: '-'::(space ++ (word ++ (tail ++ after))) := by rw [marked.split,same]; simp
  rw [← List.drop_drop,split]
  rw [split] at found
  rw [downMarker_rest (blank space between) named found]
  exact trim_front behind after

theorem sections_unmarked (none_found : (text.splitOn '\n').findIdx? (isMarker gap) = none) : sections gap text = ⟨trim text,none⟩ ∧ markerPlace gap text = none := by
  simp [sections,markerPlace,none_found]

theorem parse_unmarked (none_found : markers text = []) : parseMigrationFile text = ⟨trim text,none⟩ ∧ parseMigrationSql text = ⟨trim text,none⟩ := by
  simp [parseMigrationFile,parseMigrationSql,none_found,cut]

theorem marker_dash (found : markers text = (place,count)::more) : text[place]? = some '-' ∧ downMarker (text.drop place) = some count := by
  have matched := markers_spec (found ▸ List.mem_cons_self ..)
  obtain ⟨rest,dashes⟩ := downMarker_dashes matched
  have first : (text.drop place)[0]? = some '-' := by rw [dashes]; rfl
  rw [List.getElem?_drop,Nat.add_zero] at first
  exact ⟨first,matched⟩

theorem file_marked (found : markers text = (place,count)::more) : parseMigrationFile text = ⟨trim (text.take place),orNull (trim (
    match more with
    | [] => text.drop (place + count)
    | next::_ => (text.drop (place + count)).take (next.1 - (place + count))))⟩ := by
  cases more with
  | nil => simp [parseMigrationFile,found,cut]
  | cons next more => simp [parseMigrationFile,found,cut]

theorem sql_marked (found : markers text = (place,count)::more) : parseMigrationSql text = ⟨trim (text.take place),orNull (
    match (text.drop place).findIdx? (· = '\n') with
    | some firstNewline => trim ((text.drop place).drop (firstNewline + 1))
    | none => [])⟩ := by
  simp [parseMigrationSql,found]

theorem second_taken (found : markers text = (place,count)::next::more) :
    orNull (trim ((text.drop (place + count)).take (next.1 - (place + count)))) ≠ orNull (trim (text.drop (place + count))) := by
  intro same
  have bound := markersFrom_apart found next (List.mem_cons_self ..)
  have matched : downMarker (text.drop next.1) = some next.2 := markers_spec (by rw [found]; simp)
  obtain ⟨rest,dashes⟩ := downMarker_dashes matched
  have equal := congrArg solid (orNull_inj same)
  rw [solid_trim,solid_trim] at equal
  have split : text.drop (place + count) = (text.drop (place + count)).take (next.1 - (place + count)) ++ '-':: '-'::rest := by
    conv_lhs => rw [← List.take_append_drop (next.1 - (place + count)) (text.drop (place + count))]
    rw [List.drop_drop,show place + count + (next.1 - (place + count)) = next.1 by omega,dashes]
  have lengths := congrArg List.length equal
  rw [split,solid_append,← split,List.length_append] at lengths
  have dash : isSpace '-' = false := by decide
  simp [solid,dash] at lengths

theorem up_apart (dash : text[place]? = some '-') : solid (text.take place) ≠ solid text := by
  intro equal
  have solid_dash : isSpace '-' = false := by decide
  have split : text = text.take place ++ '-'::text.drop (place + 1) := by
    conv_lhs => rw [← List.take_append_drop place text]
    rw [List.drop_eq_getElem?_toList_append,dash]
    rfl
  have lengths := congrArg List.length equal
  conv_rhs at lengths => rw [split,solid_append,List.length_append]
  simp [solid,solid_dash] at lengths

theorem parsers_exact (blank : ∀ space, gap space = true → ∀ char ∈ space, isSpace char = true) (text : Text) :
    parseMigrationFile text = sections gap text ∧ parseMigrationSql text = sections gap text ↔ OneMarker gap text := by
  have dash : isSpace '-' = false := by decide
  unfold OneMarker
  cases line : (text.splitOn '\n').findIdx? (isMarker gap) with
  | none =>
    obtain ⟨told,place⟩ := sections_unmarked line
    cases found : markers text with
    | nil => simp [parse_unmarked found,told,place]
    | cons first more =>
      have apart : parseMigrationSql text ≠ sections gap text := by
        intro same
        rw [sql_marked found,told] at same
        have up := congrArg (fun parsed => solid parsed.up) same
        simp only [solid_trim] at up
        exact up_apart (marker_dash found).1 up
      simp [apart,place]
  | some line =>
    obtain ⟨place,core,after,marked⟩ := marked line
    cases found : markers text with
    | nil =>
      have apart : parseMigrationSql text ≠ sections gap text := by
        intro same
        have up := congrArg (fun parsed => solid parsed.up) same
        rw [(parse_unmarked found).2,marked.up,solid_trim,solid_trim] at up
        exact up_apart marked.dash up.symm
      simp [apart,marked.found]
    | cons first more =>
      obtain ⟨start,count⟩ := first
      obtain ⟨at_dash,matched⟩ := marker_dash found
      have reached : parseMigrationSql text = sections gap text → start = place := by
        intro same
        have up := congrArg (fun parsed => solid parsed.up) same
        rw [sql_marked found,marked.up,solid_trim,solid_trim] at up
        exact take_solid at_dash marked.dash dash dash up
      by_cases here : start = place
      · subst here
        have sql : parseMigrationSql text = sections gap text := by
          rw [sql_marked found,marked.behind,← marked.below,← marked.up]
        cases more with
        | nil =>
          have file : parseMigrationFile text = sections gap text := by
            rw [file_marked found,marked.left blank matched,← marked.below,← marked.up]
          simp [file,sql,marked.found]
        | cons next more =>
          have file : parseMigrationFile text ≠ sections gap text := by
            intro same
            rw [file_marked found] at same
            have down := congrArg ParsedMigration.down same
            rw [marked.below,← marked.left blank matched] at down
            exact second_taken found down
          simp [file,marked.found]
      · have apart := mt reached here
        simp [apart,marked.found,here]

end

def oneBlank (space : Text) : Bool := space = [' ']

theorem oneBlank_space : ∀ space, oneBlank space = true → ∀ char ∈ space, isSpace char = true := by
  intro space one char member
  rw [of_decide_eq_true one] at member
  rw [List.mem_singleton.mp member]
  decide

def twice : Text := "CREATE TABLE a ();\n-- DOWN\nDROP TABLE a;\n-- down\nDROP TABLE b;".toList

theorem parsers_exact_twice : parseMigrationFile twice = sections oneBlank twice ∧ parseMigrationSql twice = sections oneBlank twice ↔
    OneMarker oneBlank twice := parsers_exact oneBlank_space twice

-- The engine drops what stands behind a second marker, the loader keeps it.
theorem twice_apart : ¬ ∀ text : Text, parseMigrationFile text = parseMigrationSql text ∧ parseMigrationFile text = sections oneBlank text ∧
    parseMigrationSql text = sections oneBlank text := by
  intro always
  have same := congrArg ParsedMigration.down (always twice).1
  revert same
  decide

end Zveltio.MigrationText

import Zveltio.SqlLiterals
import Zveltio.IpText
import Mathlib.Logic.Function.Basic
namespace Zveltio.ArrayLiteral
open SqlLiterals (Nonzero signed toISOString hex)
open Binary64 (layout)
open IpText (Text joined joined_append)

-- String(-0) is 0; object holds what JSON.stringify writes for it.
inductive Leaf where
  | null
  | undefined
  | boolean (value : Bool)
  | zero
  | number (value : Nonzero)
  | notANumber
  | infinity (negative : Bool)
  | bigint (value : Int)
  | date (time : Subtype Calendar.Valid)
  | buffer (bytes : List UInt8)
  | string (text : Text)
  | object (json : Text)

-- What the element is as text; none where it is no value.
def Leaf.text : Leaf → Option Text
  | .null => none
  | .undefined => none
  | .boolean true => some "true".toList
  | .boolean false => some "false".toList
  | .zero => some ['0']
  | .number value => some (signed value.negative (layout value.digits value.point).toList)
  | .notANumber => some "NaN".toList
  | .infinity negative => some (signed negative "Infinity".toList)
  | .bigint value => some (signed (value < 0) (Nat.toDigits 10 value.natAbs))
  | .date time => some (toISOString time.val)
  | .buffer bytes => some ('\\':: 'x'::hex bytes)
  | .string text => some text
  | .object json => some json

inductive Item where
  | leaf (value : Leaf)
  | array (items : List Item)

def replaceAll (mark : Char) (put text : Text) : Text := text.flatMap fun char => if char = mark then put else [char]

def quoted (text : Text) : Text := '"'::replaceAll '"' ['\\','"'] (replaceAll '\\' ['\\','\\'] text) ++ ['"']

mutual
def part : Item → Text
  | .leaf value => match value.text with
    | none => ['N','U','L','L']
    | some text => quoted text
  | .array items => '{'::joined ',' (parts items) ++ ['}']

def parts : List Item → List Text
  | [] => []
  | item::rest => part item::parts rest
end

def arrayLiteral (items : List Item) : Text := '{'::joined ',' (parts items) ++ ['}']

-- PostgreSQL's reading of an array literal, token by token.
def arraySpace (char : Char) : Bool := char = ' ' || char = '\t' || char = '\n' || char = '\x0d' || char = '\x0b' || char = '\x0c'

inductive Token where
  | levelStart
  | levelEnd
  | delim
  | elem (value : Option Text)
  deriving DecidableEq

def quotedElement (elem : Text) : Text → Option (Token × Text)
  | [] => none
  | '\\'::[] => none
  | '\\'::char::rest => quotedElement (elem ++ [char]) rest
  | '"'::rest =>
    let behind := rest.dropWhile arraySpace
    match behind.head? with
    | some char => if char = ',' || char = '}' || char = '{' then some (.elem (some elem),behind) else none
    | none => none
  | char::rest => quotedElement (elem ++ [char]) rest

-- space is the white space since the last character that is kept.
def unquotedElement (elem space : Text) (escapes : Bool) : Text → Option (Token × Text)
  | [] => none
  | '{'::_ => none
  | '"'::_ => none
  | '\\'::[] => none
  | '\\'::char::rest => unquotedElement (elem ++ space ++ [char]) [] true rest
  | char::rest =>
    if char = ',' || char = '}' then
      some (.elem (if !escapes && elem.map Char.toUpper = ['N','U','L','L'] then none else some elem),char::rest)
    else if arraySpace char then unquotedElement elem (space ++ [char]) escapes rest
    else unquotedElement (elem ++ space ++ [char]) [] escapes rest

def readArrayToken : Text → Option (Token × Text)
  | [] => none
  | '"'::rest => quotedElement [] rest
  | '{'::rest => some (.levelStart,rest)
  | '}'::rest => some (.levelEnd,rest)
  | ','::rest => some (.delim,rest)
  | char::rest => if arraySpace char then readArrayToken rest else unquotedElement [] [] false (char::rest)

def MAXDIM : Nat := 6

-- nelems of the open levels, the innermost first; dim of a level is none until its first array has ended.
structure Reading where
  nelems : List Nat
  ndim : Nat
  ndimFrozen : Bool
  dim : Nat → Option Nat
  expectDelim : Bool
  values : List (Option Text)

def Reading.start : Reading := ⟨[],0,false,fun _ => none,false,[]⟩

def counted : List Nat → List Nat
  | [] => []
  | count::outer => (count + 1)::outer

def Reading.take (reading : Reading) : Token → Option Reading
  | .levelStart =>
    if reading.expectDelim || MAXDIM ≤ reading.nelems.length then none
    else
      let opened := {reading with nelems := 0::reading.nelems}
      if reading.ndim < opened.nelems.length then
        if reading.ndimFrozen then none else some {opened with ndim := opened.nelems.length}
      else some opened
  | .levelEnd =>
    match reading.nelems with
    | [] => none
    | count::outer =>
      if 0 < count && !reading.expectDelim then none
      else
        let closed := {reading with nelems := counted outer,expectDelim := true}
        match reading.dim outer.length with
        | none => some {closed with dim := Function.update reading.dim outer.length (some count)}
        | some size => if count = size then some closed else none
  | .delim => if reading.expectDelim then some {reading with expectDelim := false} else none
  | .elem value =>
    if reading.expectDelim || reading.nelems.length ≠ reading.ndim then none
    else some {reading with nelems := counted reading.nelems,ndimFrozen := true,expectDelim := true,values := reading.values ++ [value]}

-- do ... while (nest_level > 0): every token takes something of the text.
def readArrayStr : Nat → Text → Reading → Option (Reading × Text)
  | 0,_,_ => none
  | fuel + 1,text,reading =>
    match readArrayToken text with
    | none => none
    | some (token,rest) =>
      match reading.take token with
      | none => none
      | some next => if next.nelems = [] then some (next,rest) else readArrayStr fuel rest next

structure PgArray where
  dims : List Nat
  elements : List (Option Text)
  deriving DecidableEq

-- Without explicit dimensions, which no literal of the program has.
def arrayIn (text : Text) : Option PgArray :=
  let text := text.dropWhile arraySpace
  if text.head? = some '{' then
    match readArrayStr text.length text .start with
    | none => none
    | some (reading,rest) =>
      if rest.all arraySpace then
        some (if reading.values = [] then ⟨[],[]⟩ else ⟨(List.range reading.ndim).map fun level => (reading.dim level).getD 0,reading.values⟩)
      else none
  else none

-- The sizes of a rectangular nested array, the outermost first.
inductive Shaped : List Nat → Item → Prop where
  | leaf (value : Leaf) : Shaped [] (.leaf value)
  | array (items : List Item) (each : ∀ item ∈ items, Shaped dims item) : Shaped (items.length::dims) (.array items)

mutual
def leaves : Item → List (Option Text)
  | .leaf value => [value.text]
  | .array items => allLeaves items

def allLeaves : List Item → List (Option Text)
  | [] => []
  | item::rest => leaves item ++ allLeaves rest
end

-- The shapes PostgreSQL has: the empty array, and up to six dimensions none of which is empty.
def Representable (dims : List Nat) : Prop := dims = [0] ∨ dims.length ≤ MAXDIM ∧ ∀ size ∈ dims, 0 < size

def escape (char : Char) : Text := if char = '\\' then ['\\','\\'] else if char = '"' then ['\\','"'] else [char]

theorem quoted_escape (text : Text) : quoted text = '"'::text.flatMap escape ++ ['"'] := by
  have each : replaceAll '"' ['\\','"'] (replaceAll '\\' ['\\','\\'] text) = text.flatMap escape := by
    unfold replaceAll
    rw [List.flatMap_assoc]
    refine List.flatMap_congr fun char _ => ?_
    unfold escape
    by_cases slash : char = '\\'
    · subst slash
      decide
    · by_cases quote : char = '"' <;> simp [slash,quote]
  rw [quoted,each]

-- What comes after an element: a comma or a closing brace.
def Follows (rest : Text) : Prop := ∃ char more, rest = char::more ∧ (char = ',' ∨ char = '}')

theorem quotedElement_escape (follows : Follows rest) (elem text : Text) :
    quotedElement elem (text.flatMap escape ++ '"'::rest) = some (.elem (some (elem ++ text)),rest) := by
  induction text generalizing elem with
  | nil =>
    obtain ⟨char,more,rfl,rfl | rfl⟩ := follows <;> simp [quotedElement,arraySpace]
  | cons char text ih =>
    have later := ih (elem ++ [char])
    rw [List.append_assoc] at later
    rw [List.flatMap_cons,List.append_assoc]
    by_cases slash : char = '\\'
    · subst slash
      rw [show escape '\\' = ['\\','\\'] from rfl]
      exact later
    · by_cases quote : char = '"'
      · subst quote
        rw [show escape '"' = ['\\','"'] from rfl]
        exact later
      · rw [show escape char = [char] by simp [escape,slash,quote],List.singleton_append,quotedElement]
        · exact later
        · rintro rfl
          exact absurd rfl slash
        · rintro _ _ rfl
          exact absurd rfl slash
        · exact quote

theorem token_quoted (follows : Follows rest) (text : Text) : readArrayToken (quoted text ++ rest) = some (.elem (some text),rest) := by
  have read := quotedElement_escape follows [] text
  rw [quoted_escape]
  simpa [readArrayToken] using read

theorem token_null (follows : Follows rest) : readArrayToken (['N','U','L','L'] ++ rest) = some (.elem none,rest) := by
  obtain ⟨char,more,rfl,rfl | rfl⟩ := follows <;> simp [readArrayToken,unquotedElement,arraySpace]

-- Tokens read one after another inside the outermost braces.
inductive Reads : Reading → Text → Reading → Text → Prop where
  | done : Reads reading text reading text
  | token (read : readArrayToken text = some (token,behind)) (shorter : behind.length < text.length) (taken : before.take token = some next)
      (inside : next.nelems ≠ []) (later : Reads next behind after rest) : Reads before text after rest

theorem Reads.trans (first : Reads before text middle behind) (second : Reads middle behind after rest) : Reads before text after rest := by
  induction first with
  | done => exact second
  | token read shorter taken inside _ ih => exact .token read shorter taken inside (ih second)

theorem Reads.fuel (reads : Reads before text after rest) (fuel : Nat) (enough : text.length ≤ fuel) :
    ∃ left, rest.length ≤ left ∧ readArrayStr fuel text before = readArrayStr left rest after := by
  induction reads generalizing fuel with
  | done => exact ⟨fuel,enough,rfl⟩
  | token read shorter taken inside _ ih =>
    obtain ⟨less,rfl⟩ : ∃ less, fuel = less + 1 := ⟨fuel - 1,by omega⟩
    obtain ⟨left,bound,same⟩ := ih less (by omega)
    refine ⟨left,bound,?_⟩
    rw [readArrayStr,read]
    simp only [taken,if_neg inside]
    exact same

-- At a level whose elements have the given sizes, before an element and after some of them.
structure Ready (level : Nat) (dims : List Nat) (reading : Reading) : Prop where
  depth : reading.nelems.length = level
  expects : reading.expectDelim = false
  known : reading.ndimFrozen = true ∧ reading.ndim = level + dims.length ∨ reading.ndimFrozen = false ∧ reading.ndim = level
  sizes : ∀ index size, dims[index]? = some size → reading.dim (level + index) = none ∨ reading.dim (level + index) = some size

structure Filled (level : Nat) (dims : List Nat) (before after : Reading) (nelems : List Nat) (values : List (Option Text)) : Prop where
  nelems : after.nelems = nelems
  values : after.values = before.values ++ values
  expects : after.expectDelim = true
  frozen : after.ndimFrozen = true
  ndim : after.ndim = level + dims.length
  sizes : ∀ index size, dims[index]? = some size → after.dim (level + index) = some size
  kept : ∀ outer < level, after.dim outer = before.dim outer

theorem counted_length (nelems : List Nat) : (counted nelems).length = nelems.length := by cases nelems <;> rfl

theorem Ready.inside (ready : Ready (level + 1) dims reading) : reading.nelems ≠ [] := by
  intro none
  have depth := ready.depth
  rw [none] at depth
  cases depth

def Readable (dims : List Nat) (item : Item) : Prop :=
  ∀ level before rest, level + 1 + dims.length ≤ MAXDIM → Ready (level + 1) dims before → Follows rest →
    ∃ after, Reads before (part item ++ rest) after rest ∧ Filled (level + 1) dims before after (counted before.nelems) (leaves item)

theorem leaf_readable (value : Leaf) : Readable [] (.leaf value) := by
  intro level before rest _ ready follows
  have known : before.ndim = level + 1 := by
    rcases ready.known with ⟨_,same⟩ | ⟨_,same⟩
    · simpa using same
    · exact same
  have taken : before.take (.elem value.text) =
      some {before with nelems := counted before.nelems,ndimFrozen := true,expectDelim := true,values := before.values ++ [value.text]} := by
    simp [Reading.take,ready.expects,ready.depth,known]
  have inside : counted before.nelems ≠ [] := by
    intro none
    have length := counted_length before.nelems
    rw [none,ready.depth] at length
    cases length
  have read : readArrayToken (part (.leaf value) ++ rest) = some (.elem value.text,rest) := by
    rw [part]
    cases value.text with
    | none => exact token_null follows
    | some text => exact token_quoted follows text
  have shorter : rest.length < (part (.leaf value) ++ rest).length := by
    rw [part]
    cases value.text <;> simp [quoted] <;> omega
  refine ⟨_,.token read shorter taken inside .done,rfl,rfl,rfl,rfl,?_,?_,fun _ _ => rfl⟩
  · simpa using known
  · intro index size found
    cases found

theorem Filled.ready (filled : Filled level dims before after counts held) (depth : counts.length = level) : Ready level dims {after with expectDelim := false} :=
  ⟨by rw [← depth]; exact congrArg List.length filled.nelems,rfl,.inl ⟨filled.frozen,filled.ndim⟩,fun index size found => .inr (filled.sizes index size found)⟩

theorem joined_parts (item next : Item) (more : List Item) (rest : Text) :
    joined ',' (parts (item::next::more)) ++ rest = part item ++ ','::(joined ',' (parts (next::more)) ++ rest) := by
  simp [parts,joined]

theorem items_readable {items : List Item} (some_item : items ≠ []) (each : ∀ item ∈ items, Readable dims item) (level : Nat) (before : Reading) (rest : Text)
    (bound : level + 1 + dims.length ≤ MAXDIM) (ready : Ready (level + 1) dims before) (follows : Follows rest) :
    ∃ after, Reads before (joined ',' (parts items) ++ rest) after rest ∧
      Filled (level + 1) dims before after (counted^[items.length] before.nelems) (allLeaves items) := by
  induction items generalizing before with
  | nil => exact absurd rfl some_item
  | cons item more ih =>
    cases more with
    | nil =>
      obtain ⟨after,reads,filled⟩ := each item (List.mem_cons_self ..) level before rest bound ready follows
      refine ⟨after,by simpa [parts,joined] using reads,?_⟩
      simpa [allLeaves] using filled
    | cons next more =>
      have comma : Follows (','::(joined ',' (parts (next::more)) ++ rest)) := ⟨',',_,rfl,.inl rfl⟩
      obtain ⟨middle,first,filled⟩ := each item (List.mem_cons_self ..) level before _ bound ready comma
      have depth : (counted before.nelems).length = level + 1 := (counted_length _).trans ready.depth
      have open_ : middle.take .delim = some {middle with expectDelim := false} := by simp [Reading.take,filled.expects]
      have inside := (filled.ready depth).inside
      obtain ⟨after,later,whole⟩ := ih (List.cons_ne_nil _ _) (fun one member => each one (List.mem_cons_of_mem _ member)) _ (filled.ready depth)
      refine ⟨after,?_,?_⟩
      · rw [joined_parts]
        exact first.trans (.token rfl (by simp) open_ inside later)
      · refine ⟨?_,?_,whole.expects,whole.frozen,whole.ndim,whole.sizes,fun outer less => (whole.kept outer less).trans (filled.kept outer less)⟩
        · rw [whole.nelems]
          change counted^[(next::more).length] middle.nelems = counted^[(next::more).length] (counted before.nelems)
          rw [filled.nelems]
        · rw [whole.values,show allLeaves (item::next::more) = leaves item ++ allLeaves (next::more) from rfl,← List.append_assoc,← filled.values]

theorem counted_iterate (times count : Nat) (outer : List Nat) : counted^[times] (count::outer) = (count + times)::outer := by
  induction times generalizing count with
  | zero => rfl
  | succ times ih =>
    rw [Function.iterate_succ_apply,counted,ih]
    congr 1
    omega

theorem open_ready (ready : Ready level (size::dims) before) (bound : level + (dims.length + 1) ≤ MAXDIM) :
    ∃ opened, before.take .levelStart = some opened ∧ opened.nelems = 0::before.nelems ∧ opened.values = before.values ∧ opened.dim = before.dim ∧
      Ready (level + 1) dims opened := by
  have room : ¬ MAXDIM ≤ before.nelems.length := by
    rw [ready.depth]
    omega
  have sizes : ∀ index size', dims[index]? = some size' → before.dim (level + 1 + index) = none ∨ before.dim (level + 1 + index) = some size' := by
    intro index size' found
    have deeper := ready.sizes (index + 1) size' (by simpa using found)
    rwa [show level + (index + 1) = level + 1 + index by omega] at deeper
  have depth : before.nelems.length + 1 = level + 1 := by rw [ready.depth]
  rcases ready.known with ⟨frozen,ndim⟩ | ⟨loose,ndim⟩
  · have known : ¬ before.ndim < before.nelems.length + 1 := by
      rw [ndim,ready.depth,List.length_cons]
      omega
    refine ⟨{before with nelems := 0::before.nelems},?_,rfl,rfl,rfl,depth,ready.expects,.inl ⟨frozen,?_⟩,sizes⟩
    · simp [Reading.take,ready.expects,room,known]
    · rw [ndim,List.length_cons]
      omega
  · have grows : before.ndim < before.nelems.length + 1 := by
      rw [ndim,ready.depth]
      omega
    refine ⟨{before with nelems := 0::before.nelems,ndim := before.nelems.length + 1},?_,rfl,rfl,rfl,depth,ready.expects,.inr ⟨loose,depth⟩,sizes⟩
    simp [Reading.take,ready.expects,room,grows,loose]

theorem close_filled {middle : Reading} (filled : Filled (outer.length + 1) dims before middle (size::outer) values)
    (sizes : before.dim outer.length = none ∨ before.dim outer.length = some size) :
    ∃ after, middle.take .levelEnd = some after ∧ after.nelems = counted outer ∧
      Filled outer.length (size::dims) before after (counted outer) values := by
  have size_kept := filled.kept outer.length (Nat.lt_succ_self _)
  have inner : ∀ after : Reading, (∀ level, level ≠ outer.length → after.dim level = middle.dim level) → after.dim outer.length = some size →
      ∀ index size', (size::dims)[index]? = some size' → after.dim (outer.length + index) = some size' := by
    intro after others here index size' found
    cases index with
    | zero =>
      rw [Nat.add_zero,here]
      simpa using found
    | succ index =>
      rw [others _ (by omega),show outer.length + (index + 1) = outer.length + 1 + index by omega]
      exact filled.sizes index size' (by simpa using found)
  have ndim : middle.ndim = outer.length + (size::dims).length := by
    rw [filled.ndim,List.length_cons]
    omega
  rcases sizes with unknown | known
  · refine ⟨{middle with nelems := counted outer,expectDelim := true,dim := Function.update middle.dim outer.length (some size)},?_,rfl,rfl,filled.values,rfl,
      filled.frozen,ndim,?_,?_⟩
    · simp [Reading.take,filled.nelems,filled.expects,size_kept,unknown]
    · exact inner _ (fun level apart => Function.update_of_ne apart ..) (Function.update_self ..)
    · intro level less
      rw [← filled.kept level (Nat.lt_succ_of_lt less)]
      exact Function.update_of_ne (Nat.ne_of_lt less) ..
  · refine ⟨{middle with nelems := counted outer,expectDelim := true},?_,rfl,rfl,filled.values,rfl,filled.frozen,ndim,?_,?_⟩
    · simp [Reading.take,filled.nelems,filled.expects,size_kept,known]
    · exact inner _ (fun _ _ => rfl) (size_kept.trans known)
    · exact fun level less => filled.kept level (Nat.lt_succ_of_lt less)

theorem array_readable {items : List Item} (some_item : items ≠ []) (each : ∀ item ∈ items, Readable dims item) :
    Readable (items.length::dims) (.array items) := by
  intro level before rest bound ready follows
  rw [List.length_cons] at bound
  obtain ⟨opened,start,nelems,values,dim,inside⟩ := open_ready ready (by omega)
  have brace : Follows ('}'::rest) := ⟨'}',rest,rfl,.inr rfl⟩
  obtain ⟨middle,reads,filled⟩ := items_readable some_item each (level + 1) opened ('}'::rest) (by omega) inside brace
  rw [nelems,counted_iterate,Nat.zero_add] at filled
  have depth := ready.depth
  have same : Filled (before.nelems.length + 1) dims before middle (items.length::before.nelems) (allLeaves items) := by
    rw [depth]
    exact ⟨filled.nelems,by rw [filled.values,values],filled.expects,filled.frozen,filled.ndim,filled.sizes,by rw [← dim]; exact filled.kept⟩
  have sizes : before.dim before.nelems.length = none ∨ before.dim before.nelems.length = some items.length := by
    have first := ready.sizes 0 items.length rfl
    rwa [Nat.add_zero,← depth] at first
  obtain ⟨after,stop,closed,whole⟩ := close_filled same sizes
  have kept : after.nelems ≠ [] := by
    rw [closed]
    intro none
    have length := counted_length before.nelems
    rw [none,depth] at length
    cases length
  refine ⟨after,?_,?_⟩
  · have text : part (.array items) ++ rest = '{'::(joined ',' (parts items) ++ '}'::rest) := by simp [part]
    rw [text]
    exact .token rfl (by simp) start (by simp [nelems]) (reads.trans (.token rfl (by simp) stop kept .done))
  · rw [depth] at whole
    exact whole

theorem shaped_readable (shaped : Shaped dims item) (sizes : ∀ size ∈ dims, 0 < size) : Readable dims item := by
  induction shaped with
  | leaf value => exact leaf_readable value
  | array items _ ih =>
    have positive := sizes items.length (List.mem_cons_self ..)
    exact array_readable (List.ne_nil_of_length_pos positive) fun item member => ih item member fun size inner => sizes size (List.mem_cons_of_mem _ inner)

def pgArray (dims : List Nat) (elements : List (Option Text)) : PgArray := if dims = [0] then ⟨[],[]⟩ else ⟨dims,elements⟩

theorem leaves_some (shaped : Shaped dims item) (sizes : ∀ size ∈ dims, 0 < size) : leaves item ≠ [] := by
  induction shaped with
  | leaf value => exact List.cons_ne_nil _ _
  | array items _ ih =>
    have positive := sizes items.length (List.mem_cons_self ..)
    obtain ⟨item,more,rfl⟩ := List.exists_cons_of_length_pos positive
    rw [leaves,allLeaves]
    exact List.append_ne_nil_of_left_ne_nil (ih item (List.mem_cons_self ..) fun size inner => sizes size (List.mem_cons_of_mem _ inner)) _

theorem shaped_array (shaped : Shaped dims (.array items)) : ∃ inner, dims = items.length::inner ∧ ∀ item ∈ items, Shaped inner item := by
  cases shaped with
  | array _ each => exact ⟨_,rfl,each⟩

theorem dims_range {dims : List Nat} {dim : Nat → Option Nat} (sizes : ∀ (index : Nat) size, dims[index]? = some size → dim index = some size) :
    (List.range dims.length).map (fun level => (dim level).getD 0) = dims := by
  refine List.ext_getElem (by simp) fun index _ bound => ?_
  simp [sizes index dims[index] (List.getElem?_eq_getElem bound)]

theorem arrayLiteral_read (items : List Item) (dims : List Nat) (shaped : Shaped dims (.array items)) (representable : Representable dims) :
    arrayIn (arrayLiteral items) = some (pgArray dims (allLeaves items)) := by
  obtain ⟨inner,rfl,each⟩ := shaped_array shaped
  rcases representable with empty | ⟨bound,sizes⟩
  · obtain ⟨none,rfl⟩ := List.cons.inj empty
    rw [List.length_eq_zero_iff] at none
    subst none
    rfl
  · have positive := sizes items.length (List.mem_cons_self ..)
    have some_item := List.ne_nil_of_length_pos positive
    have readable : ∀ item ∈ items, Readable inner item :=
      fun item member => shaped_readable (each item member) fun size there => sizes size (List.mem_cons_of_mem _ there)
    rw [List.length_cons] at bound
    let opened : Reading := {Reading.start with nelems := [0],ndim := 1}
    have ready : Ready (0 + 1) inner opened := ⟨rfl,rfl,.inr ⟨rfl,rfl⟩,fun _ _ _ => .inl rfl⟩
    obtain ⟨middle,reads,filled⟩ := items_readable some_item readable 0 opened ['}'] (by omega) ready ⟨'}',[],rfl,.inr rfl⟩
    rw [show opened.nelems = [0] from rfl,counted_iterate,Nat.zero_add items.length] at filled
    have outermost : Filled (([] : List Nat).length + 1) inner opened middle (items.length::[]) (allLeaves items) := filled
    obtain ⟨after,stop,closed,whole⟩ := close_filled outermost (.inl rfl)
    have text : arrayLiteral items = '{'::(joined ',' (parts items) ++ ['}']) := rfl
    obtain ⟨left,enough,same⟩ := reads.fuel (joined ',' (parts items) ++ ['}']).length (Nat.le_refl _)
    obtain ⟨less,rfl⟩ : ∃ less, left = less + 1 := ⟨left - 1,by simp only [List.length_singleton] at enough; omega⟩
    have last : readArrayStr (less + 1) ['}'] middle = some (after,[]) := by
      rw [readArrayStr,show readArrayToken ['}'] = some (.levelEnd,[]) from rfl]
      simp only [stop,closed,counted,if_true]
    have run : readArrayStr (arrayLiteral items).length (arrayLiteral items) .start = some (after,[]) := by
      rw [text,List.length_cons,readArrayStr,show readArrayToken ('{'::(joined ',' (parts items) ++ ['}'])) = some (.levelStart,_) from rfl]
      simp only [show Reading.start.take .levelStart = some opened from rfl,show opened.nelems = [0] from rfl,List.cons_ne_nil,if_false]
      rw [same,last]
    have values : after.values = allLeaves items := whole.values
    have some_leaf : allLeaves items ≠ [] := leaves_some shaped sizes
    have ndim : after.ndim = (items.length::inner).length := by rw [whole.ndim]; exact Nat.zero_add _
    have dims : (List.range after.ndim).map (fun level => (after.dim level).getD 0) = items.length::inner := by
      rw [ndim]
      refine dims_range fun index size found => ?_
      have kept := whole.sizes index size found
      rwa [show ([] : List Nat).length + index = index from Nat.zero_add _] at kept
    have shape : items.length::inner ≠ [0] := by
      intro empty
      have := (List.cons.inj empty).1
      omega
    have start : (arrayLiteral items).dropWhile arraySpace = arrayLiteral items := rfl
    unfold arrayIn
    rw [start]
    simp only [run,show (arrayLiteral items).head? = some '{' from rfl,if_true,List.all_nil,values,some_leaf,if_false,dims,pgArray,shape]

def awkward : List Item :=
  [.array [.leaf (.string "a,\"b\\".toList),.leaf .null],.array [.leaf (.string "NULL".toList),.leaf (.string [])]]

theorem pair_shaped (one other : Leaf) : Shaped [2] (.array [.leaf one,.leaf other]) := by
  refine .array [.leaf one,.leaf other] fun item member => ?_
  simp only [List.mem_cons,List.not_mem_nil,or_false] at member
  rcases member with rfl | rfl <;> exact .leaf _

theorem awkward_shaped : Shaped [2,2] (.array awkward) := by
  refine .array awkward fun item member => ?_
  simp only [awkward,List.mem_cons,List.not_mem_nil,or_false] at member
  rcases member with rfl | rfl <;> exact pair_shaped _ _

theorem arrayLiteral_read_awkward : arrayIn (arrayLiteral awkward) = some (pgArray [2,2] (allLeaves awkward)) :=
  arrayLiteral_read awkward [2,2] awkward_shaped (.inr ⟨by decide,by decide⟩)

end Zveltio.ArrayLiteral

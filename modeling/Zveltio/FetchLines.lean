import Zveltio.TextCoding
namespace Zveltio.FetchLines
open Codecs (Bytes)
open JsValues
open TextCoding (TextDecoder textDecoder)

def FETCH_LINE : Units := units "FETCH ".toList

def lineBytes : Nat := 2 * 1024 * 1024

def stdoutBytes : Nat := 16 * 1024 * 1024

def newline : UInt16 := 10

structure Taken where
  kept : List Units
  keptChars : Nat
  truncated : Bool
  fetched : List Units

def Taken.empty : Taken := ⟨[],0,false,[]⟩

structure Reading where
  buf : Units
  taken : Taken

section
variable (fetching : Bool) (maxLine maxKept : Nat)

def request (line : Units) : Bool := fetching && FETCH_LINE.isPrefixOf line

def take (line : Units) (taken : Taken) : Taken :=
  if request fetching line then {taken with fetched := taken.fetched ++ [line.drop FETCH_LINE.length]}
  else if maxKept < taken.keptChars + line.length then {taken with truncated := true}
  else {taken with kept := taken.kept ++ [line],keptChars := taken.keptChars + line.length + 1}

def takeLines (state : Reading) : Reading :=
  match found : state.buf.idxOf? newline with
  | none => state
  | some nl => takeLines ⟨state.buf.drop (nl + 1),take fetching maxKept (state.buf.take nl) state.taken⟩
  termination_by state.buf.length
  decreasing_by
    obtain ⟨inside,_⟩ := List.idxOf?_eq_some_iff.mp found
    rw [List.length_drop]
    omega

-- A request too long goes to the bridge as it stands; any other part past both limits is dropped.
def bound (state : Reading) : Reading :=
  let sent := if fetching && decide (maxLine < state.buf.length) && FETCH_LINE.isPrefixOf state.buf then
    ⟨[],{state.taken with fetched := state.taken.fetched ++ [state.buf.drop FETCH_LINE.length]}⟩ else state
  if max maxLine maxKept < sent.buf.length then ⟨[],{sent.taken with truncated := true}⟩ else sent

def readStream (decoder : TextDecoder) (state : Reading) : List Bytes → Reading
  | [] => {state with buf := state.buf ++ units decoder.flush}
  | chunk::rest =>
    let (decoder,text) := decoder.decode chunk
    readStream decoder (bound fetching maxLine maxKept (takeLines fetching maxKept {state with buf := state.buf ++ units text})) rest

def finish (state : Reading) : Taken := if state.buf = [] then state.taken else take fetching maxKept state.buf state.taken

def notice : Units := units s!"[edge] stdout truncated at {maxKept} characters".toList

-- What onFetch is called with, in turn, and the text returned; without an onFetch no line is a request.
def splitFetchLines (stream : List Bytes) : List Units × Units :=
  let taken := finish fetching maxKept (readStream fetching maxLine maxKept TextDecoder.fresh ⟨[],Taken.empty⟩ stream)
  (taken.fetched,[newline].intercalate (if taken.truncated then taken.kept ++ [notice maxKept] else taken.kept))

end

def lines (text : Units) : List Units :=
  if (text.splitOn newline).getLast? = some [] then (text.splitOn newline).dropLast else text.splitOn newline

def requests (fetching : Bool) (lines : List Units) : List Units :=
  (lines.filter (request fetching)).map (·.drop FETCH_LINE.length)

def others (fetching : Bool) (lines : List Units) : List Units := lines.filter (!request fetching ·)

-- Each line that still fits, with its line break, behind the ones kept before it.
def within (maxKept used : Nat) : List Units → List Units
  | [] => []
  | line::rest =>
    if maxKept < used + line.length then within maxKept used rest else line::within maxKept (used + line.length + 1) rest

def keptText (maxKept : Nat) (lines : List Units) : Units :=
  [newline].intercalate (if within maxKept 0 lines = lines then lines else within maxKept 0 lines ++ [notice maxKept])

theorem within_nil (maxKept used : Nat) : within maxKept used [] = [] := rfl

theorem within_cons (maxKept used : Nat) (line : Units) (rest : List Units) : within maxKept used (line::rest) =
    if maxKept < used + line.length then within maxKept used rest else line::within maxKept (used + line.length + 1) rest := rfl

theorem within_sublist (maxKept used : Nat) (lines : List Units) : (within maxKept used lines).Sublist lines := by
  induction lines generalizing used with
  | nil => exact List.Sublist.refl _
  | cons line rest ih =>
    rw [within_cons]
    split
    · exact (ih used).cons line
    · exact (ih _).cons_cons line

variable {fetching : Bool} {maxLine maxKept : Nat}

theorem take_request (named : request fetching line = true) (taken : Taken) :
    take fetching maxKept line taken = {taken with fetched := taken.fetched ++ [line.drop FETCH_LINE.length]} := if_pos named

theorem take_long (plain : ¬request fetching line = true) {taken : Taken} (long : maxKept < taken.keptChars + line.length) :
    take fetching maxKept line taken = {taken with truncated := true} := by
  rw [take,if_neg plain,if_pos long]

theorem take_short (plain : ¬request fetching line = true) {taken : Taken} (short : ¬maxKept < taken.keptChars + line.length) :
    take fetching maxKept line taken =
      {taken with kept := taken.kept ++ [line],keptChars := taken.keptChars + line.length + 1} := by
  rw [take,if_neg plain,if_neg short]

theorem others_request (named : request fetching line = true) (rest : List Units) :
    others fetching (line::rest) = others fetching rest ∧
      requests fetching (line::rest) = line.drop FETCH_LINE.length::requests fetching rest := by
  simp [others,requests,named]

theorem others_plain (plain : ¬request fetching line = true) (rest : List Units) :
    others fetching (line::rest) = line::others fetching rest ∧ requests fetching (line::rest) = requests fetching rest := by
  simp [others,requests,plain]

theorem within_long (maxKept used : Nat) {line : Units} (rest : List Units) (long : maxKept < used + line.length) :
    within maxKept used (line::rest) = within maxKept used rest ∧ within maxKept used (line::rest) ≠ line::rest := by
  have same := (within_cons maxKept used line rest).trans (if_pos long)
  refine ⟨same,fun whole => ?_⟩
  have length := (within_sublist maxKept used rest).length_le
  rw [← same,whole,List.length_cons] at length
  omega

-- What taking lines in turn leaves behind.
def Leaves (fetching : Bool) (maxKept : Nat) (lines : List Units) (before after : Taken) : Prop :=
  after.kept = before.kept ++ within maxKept before.keptChars (others fetching lines) ∧
    (after.truncated = true ↔ before.truncated = true ∨
      within maxKept before.keptChars (others fetching lines) ≠ others fetching lines) ∧
    after.fetched = before.fetched ++ requests fetching lines

theorem take_leaves (lines : List Units) (taken : Taken) :
    Leaves fetching maxKept lines taken (lines.foldl (fun taken line => take fetching maxKept line taken) taken) := by
  induction lines generalizing taken with
  | nil => exact ⟨(List.append_nil _).symm,by simp [others,within],(List.append_nil _).symm⟩
  | cons line rest ih =>
    rw [List.foldl_cons]
    obtain ⟨kept,truncated,fetched⟩ := ih (take fetching maxKept line taken)
    unfold Leaves
    by_cases named : request fetching line = true
    · rw [(others_request named rest).1,(others_request named rest).2]
      rw [take_request named] at kept truncated fetched ⊢
      exact ⟨kept,truncated,by rw [fetched,List.append_assoc]; rfl⟩
    rw [(others_plain named rest).1,(others_plain named rest).2]
    by_cases long : maxKept < taken.keptChars + line.length
    · rw [take_long named long] at kept truncated fetched ⊢
      obtain ⟨same,cut⟩ := within_long maxKept taken.keptChars (others fetching rest) long
      exact ⟨by rw [same,kept],by rw [truncated]; simp [cut],fetched⟩
    · rw [take_short named long] at kept truncated fetched ⊢
      have same := (within_cons maxKept taken.keptChars line (others fetching rest)).trans (if_neg long)
      exact ⟨by rw [same,kept,List.append_assoc]; rfl,by rw [truncated,same]; simp,fetched⟩

-- One character more of the stream.
def push (fetching : Bool) (maxKept : Nat) (state : Reading) (char : UInt16) : Reading :=
  if char = newline then ⟨[],take fetching maxKept state.buf state.taken⟩ else ⟨state.buf ++ [char],state.taken⟩

theorem clear_append {buf : Units} (clear : newline ∉ buf) {char : UInt16} (other : char ≠ newline) : newline ∉ buf ++ [char] := by
  rw [List.mem_append,List.mem_singleton]
  exact fun held => held.elim clear fun same => other same.symm

theorem first_break {line : Units} (clear : newline ∉ line) (rest : Units) : (line ++ newline::rest).idxOf? newline = some line.length := by
  induction line with
  | nil => rfl
  | cons char line ih =>
    obtain ⟨other,clear⟩ := List.ne_and_not_mem_of_not_mem_cons clear
    rw [List.cons_append,List.idxOf?_cons,if_neg (by rw [beq_iff_eq]; exact Ne.symm other),ih clear]
    rfl

theorem takeLines_none {state : Reading} (clear : newline ∉ state.buf) : takeLines fetching maxKept state = state := by
  rw [takeLines]
  split
  · rfl
  · next nl found => exact absurd (List.isSome_idxOf?.mp (Option.isSome_of_eq_some found)) clear

theorem takeLines_break {line : Units} (clear : newline ∉ line) (rest : Units) (taken : Taken) :
    takeLines fetching maxKept ⟨line ++ newline::rest,taken⟩ = takeLines fetching maxKept ⟨rest,take fetching maxKept line taken⟩ := by
  have first := first_break clear rest
  rw [takeLines]
  split
  · next missing => cases first.symm.trans missing
  · next nl found =>
    cases Option.some.inj (first.symm.trans found)
    have behind : (line ++ newline::rest).drop (line.length + 1) = rest := by
      rw [← List.singleton_append,← List.append_assoc]
      exact List.drop_left' (by rw [List.length_append]; rfl)
    rw [behind,List.take_left]

theorem takeLines_push {state : Reading} (clear : newline ∉ state.buf) (more : Units) :
    takeLines fetching maxKept ⟨state.buf ++ more,state.taken⟩ = more.foldl (push fetching maxKept) state := by
  induction more generalizing state with
  | nil =>
    rw [List.append_nil]
    exact takeLines_none clear
  | cons char rest ih =>
    rw [List.foldl_cons]
    by_cases line : char = newline
    · rw [line,takeLines_break clear,push,if_pos rfl]
      exact @ih ⟨[],_⟩ List.not_mem_nil
    · rw [push,if_neg line,← ih (clear_append clear line),List.append_assoc]
      rfl

theorem push_clear {state : Reading} (clear : newline ∉ state.buf) (char : UInt16) : newline ∉ (push fetching maxKept state char).buf := by
  unfold push
  split
  · exact List.not_mem_nil
  · next other => exact clear_append clear other

theorem pushes_clear {state : Reading} (clear : newline ∉ state.buf) (text : Units) :
    newline ∉ (text.foldl (push fetching maxKept) state).buf := by
  induction text generalizing state with
  | nil => exact clear
  | cons char rest ih => exact ih (push_clear clear char)

theorem pushes_plain (text : Units) (clear : newline ∉ text) (state : Reading) :
    text.foldl (push fetching maxKept) state = ⟨state.buf ++ text,state.taken⟩ := by
  induction text generalizing state with
  | nil => rw [List.append_nil]; rfl
  | cons char rest ih =>
    obtain ⟨other,clear⟩ := List.ne_and_not_mem_of_not_mem_cons clear
    rw [List.foldl_cons,push,if_neg (Ne.symm other),ih clear,List.append_assoc]
    rfl

-- No line that the part in the buffer and the rest of the stream make is too long.
def Short (maxLine : Nat) (buf rest : Units) : Prop := ∀ line ∈ (buf ++ rest).splitOn newline, line.length ≤ maxLine

theorem short_buf {buf : Units} (clear : newline ∉ buf) (rest : Units) (short : Short maxLine buf rest) : buf.length ≤ maxLine := by
  induction rest generalizing buf with
  | nil =>
    refine short buf ?_
    rw [List.append_nil,List.splitOn_eq_singleton clear]
    exact List.mem_cons_self
  | cons char rest ih =>
    by_cases line : char = newline
    · refine short buf ?_
      rw [line,List.splitOn_append_cons_self_of_not_mem clear]
      exact List.mem_cons_self
    · have fits := ih (clear_append clear line) (by rw [Short,List.append_assoc]; exact short)
      rw [List.length_append,List.length_singleton] at fits
      omega

theorem short_push {state : Reading} (clear : newline ∉ state.buf) {char : UInt16} {rest : Units}
    (short : Short maxLine state.buf (char::rest)) : Short maxLine (push fetching maxKept state char).buf rest := by
  unfold push
  split
  · next line =>
    intro part held
    refine short part ?_
    rw [line,List.splitOn_append_cons_self_of_not_mem clear]
    exact List.mem_cons_of_mem _ held
  · rw [Short,List.append_assoc]
    exact short

theorem short_pushes (front : Units) {state : Reading} (clear : newline ∉ state.buf) {rest : Units}
    (short : Short maxLine state.buf (front ++ rest)) : Short maxLine (front.foldl (push fetching maxKept) state).buf rest := by
  induction front generalizing state with
  | nil => exact short
  | cons char front ih => exact ih (push_clear clear char) (short_push clear short)

theorem bound_short {state : Reading} (short : state.buf.length ≤ maxLine) : bound fetching maxLine maxKept state = state := by
  have within : ¬maxLine < state.buf.length := Nat.not_lt.mpr short
  simp only [bound,within,decide_false,Bool.and_false,Bool.false_and,Bool.false_eq_true,if_false]
  exact if_neg (by omega)

theorem flush_clear (decoder : TextDecoder) : newline ∉ units decoder.flush := by
  have ends : decoder.flush = [] ∨ decoder.flush = [TextCoding.replacement] := by
    rw [TextDecoder.flush,TextCoding.readUtf8]
    by_cases whole : decoder.bits.needed = 0
    · rw [if_pos whole]
      exact .inl (ite_self _)
    · rw [if_neg whole]
      exact .inr (by cases decoder.seen <;> decide)
  rcases ends with none | one
  · rw [none]
    exact List.not_mem_nil
  · rw [one]
    decide

theorem readStream_cons (decoder : TextDecoder) (state : Reading) (chunk : Bytes) (rest : List Bytes) :
    readStream fetching maxLine maxKept decoder state (chunk::rest) = readStream fetching maxLine maxKept (decoder.decode chunk).1
      (bound fetching maxLine maxKept (takeLines fetching maxKept ⟨state.buf ++ units (decoder.decode chunk).2,state.taken⟩)) rest := rfl

-- Chunk by chunk or character by character, the stream is read to the same state.
theorem readStream_push (chunks : List Bytes) (decoder : TextDecoder) {state : Reading} (clear : newline ∉ state.buf)
    (short : Short maxLine state.buf (units (decoder.stream chunks))) :
    readStream fetching maxLine maxKept decoder state chunks = (units (decoder.stream chunks)).foldl (push fetching maxKept) state := by
  induction chunks generalizing decoder state with
  | nil => exact (pushes_plain _ (flush_clear decoder) state).symm
  | cons chunk rest ih =>
    have split : units (decoder.stream (chunk::rest)) =
        units (decoder.decode chunk).2 ++ units ((decoder.decode chunk).1.stream rest) := List.flatMap_append
    rw [split] at short
    have cleared := @pushes_clear fetching maxKept _ clear (units (decoder.decode chunk).2)
    have shorter := @short_pushes fetching maxLine maxKept (units (decoder.decode chunk).2) _ clear _ short
    rw [split,List.foldl_append,← ih _ cleared shorter,readStream_cons,takeLines_push clear,bound_short (short_buf cleared _ shorter)]

theorem lines_last {buf : Units} (clear : newline ∉ buf) : lines buf = if buf = [] then [] else [buf] := by
  rw [lines,List.splitOn_eq_singleton clear,List.getLast?_singleton,List.dropLast_singleton]
  exact if_congr Option.some_inj rfl rfl

theorem lines_break {buf : Units} (clear : newline ∉ buf) (rest : Units) : lines (buf ++ newline::rest) = buf::lines rest := by
  have more : rest.splitOn newline ≠ [] := List.splitOn_ne_nil newline rest
  rw [lines,lines,List.splitOn_append_cons_self_of_not_mem clear,List.getLast?_cons_of_ne_nil more,List.dropLast_cons_of_ne_nil more,
    apply_ite (buf::·)]

theorem finish_lines (text : Units) {state : Reading} (clear : newline ∉ state.buf) :
    finish fetching maxKept (text.foldl (push fetching maxKept) state) =
      (lines (state.buf ++ text)).foldl (fun taken line => take fetching maxKept line taken) state.taken := by
  induction text generalizing state with
  | nil =>
    rw [List.append_nil,lines_last clear,List.foldl_nil,finish]
    split <;> rfl
  | cons char rest ih =>
    rw [List.foldl_cons,ih (push_clear clear char),push]
    by_cases line : char = newline
    · rw [if_pos line,line,lines_break clear]
      rfl
    · rw [if_neg line,List.append_assoc]
      rfl

theorem lines_short {text : Units} (short : ∀ line ∈ lines text, line.length ≤ maxLine) : Short maxLine [] text := by
  intro line held
  by_cases last : (text.splitOn newline).getLast? = some []
  · have front : lines text = (text.splitOn newline).dropLast := if_pos last
    have whole := List.dropLast_append_getLast? [] last
    rw [List.nil_append,← whole,← front,List.mem_append,List.mem_singleton] at held
    rcases held with held | rfl
    · exact short line held
    · exact Nat.zero_le _
  · have front : lines text = text.splitOn newline := if_neg last
    exact short line (by rw [front]; exact held)

theorem leaves_text {parts : List Units} {after : Taken} (leaves : Leaves fetching maxKept parts Taken.empty after) :
    (after.fetched,[newline].intercalate (if after.truncated then after.kept ++ [notice maxKept] else after.kept)) =
      (requests fetching parts,keptText maxKept (others fetching parts)) := by
  obtain ⟨kept,truncated,fetched⟩ := leaves
  have kept : after.kept = within maxKept 0 (others fetching parts) := kept
  have fetched : after.fetched = requests fetching parts := fetched
  rw [fetched,kept,keptText]
  by_cases whole : within maxKept 0 (others fetching parts) = others fetching parts
  · have plain : ¬after.truncated = true := fun cut => (truncated.mp cut).elim Bool.false_ne_true fun other => other whole
    rw [if_neg plain,if_pos whole,whole]
  · rw [if_pos (truncated.mpr (.inr whole)),if_neg whole]

theorem splitFetchLines_lines {chunks : List Bytes}
    (short : ∀ line ∈ lines (units (textDecoder chunks.flatten)), line.length ≤ maxLine) :
    splitFetchLines fetching maxLine maxKept chunks =
      (requests fetching (lines (units (textDecoder chunks.flatten))),
        keptText maxKept (others fetching (lines (units (textDecoder chunks.flatten))))) := by
  rw [← TextCoding.stream_fresh] at short ⊢
  have read := @readStream_push fetching maxLine maxKept chunks TextDecoder.fresh ⟨[],Taken.empty⟩ List.not_mem_nil (lines_short short)
  rw [splitFetchLines,read,finish_lines _ List.not_mem_nil,List.nil_append]
  exact leaves_text (take_leaves _ Taken.empty)

-- However the stream is cut, every request is handed on once, in order, and every other line is kept in order while it fits.
theorem read_alike (stream : Bytes) (short : ∀ line ∈ lines (units (textDecoder stream)), line.length ≤ maxLine)
    (chunks again : List Bytes) (cut : chunks.flatten = stream) (other : again.flatten = stream) :
    splitFetchLines fetching maxLine maxKept chunks = splitFetchLines fetching maxLine maxKept again ∧
      splitFetchLines fetching maxLine maxKept chunks = (requests fetching (lines (units (textDecoder stream))),
        keptText maxKept (others fetching (lines (units (textDecoder stream))))) := by
  have here := @splitFetchLines_lines fetching maxLine maxKept chunks (by rw [cut]; exact short)
  have there := @splitFetchLines_lines fetching maxLine maxKept again (by rw [other]; exact short)
  rw [cut] at here
  rw [other] at there
  exact ⟨here.trans there.symm,here⟩

def accented : Bytes := TextCoding.utf8 "FETCH é\nhi\n".toList

-- Cut in front of the space and inside the accented letter, under the limits the engine sets.
theorem read_alike_cut : splitFetchLines true (lineBytes + FETCH_LINE.length) stdoutBytes
    [accented.take 5,(accented.drop 5).take 2,accented.drop 7] = ([units "é".toList],units "hi".toList) :=
  (@read_alike true (lineBytes + FETCH_LINE.length) stdoutBytes accented (by decide) [accented.take 5,(accented.drop 5).take 2,accented.drop 7] [accented]
    (by decide) (by decide)).2.trans (by decide)

end Zveltio.FetchLines

import Zveltio.SchemaJson
namespace Zveltio.SchemaText
open SchemaJson

-- The character a printed string starts with, and what follows it.
def unescape : List Char → Option (Char × List Char)
  | '\x5c':: 'u'::_::_::high::low::rest =>
    some (Char.ofNat ("0123456789abcdef".toList.idxOf high * 16 + "0123456789abcdef".toList.idxOf low),rest)
  | '\x5c':: 'b'::rest => some ('\x08',rest)
  | '\x5c':: 'f'::rest => some ('\x0c',rest)
  | '\x5c':: 'n'::rest => some ('\n',rest)
  | '\x5c':: 'r'::rest => some ('\x0d',rest)
  | '\x5c':: 't'::rest => some ('\t',rest)
  | '\x5c'::char::rest => some (char,rest)
  | char::rest => some (char,rest)
  | [] => none

theorem hex_back : ∀ digit < 16, "0123456789abcdef".toList.idxOf (hexDigit digit) = digit := by decide +kernel

theorem unescape_escape (char : Char) (rest : List Char) : unescape (escape char ++ rest) = some (char,rest) := by
  unfold escape
  split
  · next here => subst here; rfl
  split
  · next here => subst here; rfl
  split
  · next here => subst here; rfl
  split
  · next here => subst here; rfl
  split
  · next here => subst here; rfl
  split
  · next here => subst here; rfl
  split
  · next here => subst here; rfl
  split
  · next control =>
    have high : char.toNat / 16 < 16 := by omega
    have low : char.toNat % 16 < 16 := Nat.mod_lt _ (by decide)
    simp only [List.cons_append,List.nil_append,unescape,hex_back _ high,hex_back _ low]
    have whole : char.toNat / 16 * 16 + char.toNat % 16 = char.toNat := by omega
    rw [whole,Char.ofNat_toNat]
  · next plain =>
    have other : char ≠ '\x5c' := by assumption
    simp [unescape,other]

theorem escape_open (char : Char) : ∃ first rest, escape char = first::rest ∧ first ≠ '\x22' := by
  unfold escape
  split
  · exact ⟨_,_,rfl,by decide⟩
  next quote =>
  repeat' split
  all_goals first | exact ⟨_,_,rfl,by decide⟩ | exact ⟨_,_,rfl,quote⟩

theorem escapes_inj (xs ys : List Char) (same : xs.flatMap escape ++ '\x22'::r = ys.flatMap escape ++ '\x22'::s) : xs = ys ∧ r = s := by
  induction xs generalizing ys with
  | nil =>
    cases ys with
    | nil => exact ⟨rfl,(List.cons.inj same).2⟩
    | cons y ys =>
      obtain ⟨first,rest,printed,other⟩ := escape_open y
      rw [List.flatMap_cons,printed] at same
      exact absurd (List.cons.inj same).1.symm other
  | cons x xs ih =>
    cases ys with
    | nil =>
      obtain ⟨first,rest,printed,other⟩ := escape_open x
      rw [List.flatMap_cons,printed] at same
      exact absurd (List.cons.inj same).1 other
    | cons y ys =>
      rw [List.flatMap_cons,List.flatMap_cons,List.append_assoc,List.append_assoc] at same
      have read := congrArg unescape same
      rw [unescape_escape,unescape_escape] at read
      obtain ⟨here,later⟩ := (Prod.mk.injEq ..).mp (Option.some.inj read)
      obtain ⟨equal,rest⟩ := ih ys later
      exact ⟨by rw [here,equal],rest⟩

theorem quote_inj (same : quote a ++ r = quote b ++ s) : a = b ∧ r = s := by
  simp only [quote,List.cons_append,List.append_assoc,List.cons.injEq,true_and] at same
  obtain ⟨texts,rest⟩ := escapes_inj _ _ same
  exact ⟨String.toList_inj.mp texts,rest⟩

def numberChars : List Char := "+-.0123456789e".toList

-- What may follow a printed value: nothing a number could go on with.
def Stops (rest : List Char) : Prop := ∀ char ∈ rest.head?, char ∉ numberChars

theorem number_inj (a b : Number) (left : Stops r) (right : Stops s) (same : a.text.toList ++ r = b.text.toList ++ s) : a = b ∧ r = s := by
  have cut (n : Number) (rest : List Char) (stops : Stops rest) :
      (n.text.toList ++ rest).takeWhile (· ∈ numberChars) = n.text.toList ∧ (n.text.toList ++ rest).dropWhile (· ∈ numberChars) = rest := by
    have all : ∀ char ∈ n.text.toList, decide (char ∈ numberChars) = true := fun char member => decide_eq_true (n.printed.2 char member)
    rw [List.takeWhile_append_of_pos all,List.dropWhile_append_of_pos all]
    cases rest with
    | nil => simp
    | cons first rest =>
      have other : first ∉ numberChars := stops first (by simp)
      simp [other]
  have texts := (cut a r left).1.symm.trans ((congrArg _ same).trans (cut b s right).1)
  have rests := (cut a r left).2.symm.trans ((congrArg _ same).trans (cut b s right).2)
  obtain ⟨x,hx⟩ := a
  obtain ⟨y,hy⟩ := b
  have equal : x = y := String.toList_inj.mp texts
  subst equal
  exact ⟨rfl,rests⟩

def kindOf (char : Char) : Nat :=
  if char = 'n' then 0 else if char = 't' ∨ char = 'f' then 1 else if char = '\x22' then 3 else if char = '[' then 4
  else if char = '\x7b' then 5 else 2

def kind : Json → Nat
  | .null => 0
  | .bool _ => 1
  | .num _ => 2
  | .str _ => 3
  | .arr _ => 4
  | .obj _ => 5

theorem stringify_kind (depth : Nat) (value : Json) : ∃ char rest, stringify 2 depth value = char::rest ∧ kindOf char = kind value := by
  cases value with
  | null => exact ⟨_,_,rfl,rfl⟩
  | bool value => cases value <;> exact ⟨_,_,rfl,rfl⟩
  | num value =>
    obtain ⟨text,nonempty,digits⟩ := value
    obtain ⟨first,rest,chars⟩ := List.exists_cons_of_ne_nil fun empty => nonempty (String.toList_eq_nil_iff.mp empty)
    refine ⟨first,rest,by rw [stringify]; exact chars,?_⟩
    have inside := digits first (by rw [chars]; exact List.mem_cons_self ..)
    have each : numberChars.all (fun char => kindOf char = 2) = true := by decide +kernel
    exact of_decide_eq_true (List.all_eq_true.mp each first inside)
  | str value => exact ⟨'\x22',_,rfl,rfl⟩
  | arr items => cases items <;> exact ⟨'[',_,rfl,rfl⟩
  | obj members => cases members <;> exact ⟨'\x7b',_,rfl,rfl⟩

theorem kind_eq (same : stringify 2 depth v ++ r = stringify 2 depth w ++ s) : kind v = kind w := by
  obtain ⟨a,_,left,first⟩ := stringify_kind depth v
  obtain ⟨b,_,right,second⟩ := stringify_kind depth w
  rw [left,right] at same
  exact first.symm.trans ((congrArg kindOf (List.cons.inj same).1).trans second)

theorem stops_break (depth : Nat) (rest : List Char) : Stops (lineBreak 2 depth ++ rest) := by
  intro char first
  cases Option.some.inj first
  decide

theorem stops_items (depth : Nat) (items : List Json) (rest : List Char) :
    Stops (stringifyItems 2 depth items ++ (lineBreak 2 depth ++ rest)) := by
  cases items with
  | nil => exact stops_break depth rest
  | cons item items =>
    intro char first
    cases Option.some.inj first
    decide

theorem stops_members (depth : Nat) (members : List (String × Json)) (rest : List Char) :
    Stops (stringifyMembers 2 depth members ++ (lineBreak 2 depth ++ rest)) := by
  cases members with
  | nil => exact stops_break depth rest
  | cons member members =>
    intro char first
    cases Option.some.inj first
    decide

mutual
theorem stringify_inj (depth : Nat) : ∀ (v w : Json) (r s : List Char), Stops r → Stops s →
    stringify 2 depth v ++ r = stringify 2 depth w ++ s → v = w ∧ r = s
  | .null,w,r,s,_,_,same => by
    cases w with
    | null => exact ⟨rfl,List.append_cancel_left same⟩
    | _ => exact absurd (kind_eq same) (by simp [kind])
  | .bool value,w,r,s,_,_,same => by
    cases w with
    | bool other =>
      cases value <;> cases other
      · exact ⟨rfl,List.append_cancel_left same⟩
      · exact absurd (List.cons.inj same).1 (by decide)
      · exact absurd (List.cons.inj same).1 (by decide)
      · exact ⟨rfl,List.append_cancel_left same⟩
    | _ => exact absurd (kind_eq same) (by simp [kind])
  | .num value,w,r,s,left,right,same => by
    cases w with
    | num other =>
      simp only [stringify] at same
      obtain ⟨equal,rest⟩ := number_inj value other left right same
      exact ⟨by rw [equal],rest⟩
    | _ => exact absurd (kind_eq same) (by simp [kind])
  | .str value,w,r,s,_,_,same => by
    cases w with
    | str other =>
      simp only [stringify] at same
      obtain ⟨equal,rest⟩ := quote_inj same
      exact ⟨by rw [equal],rest⟩
    | _ => exact absurd (kind_eq same) (by simp [kind])
  | .arr [],w,r,s,_,_,same => by
    cases w with
    | arr items => cases items with
      | nil => exact ⟨rfl,List.append_cancel_left same⟩
      | cons first rest =>
        simp only [stringify,List.append_assoc,List.cons_append] at same
        exact absurd (List.cons.inj (List.cons.inj same).2).1 (by decide)
    | _ => exact absurd (kind_eq same) (by simp [kind])
  | .arr (v::vs),w,r,s,_,_,same => by
    cases w with
    | arr items => cases items with
      | nil =>
        simp only [stringify,List.append_assoc,List.cons_append] at same
        exact absurd (List.cons.inj (List.cons.inj same).2).1 (by decide)
      | cons w ws =>
        simp only [stringify,List.append_assoc,List.cons_append,List.cons.injEq,true_and,List.append_cancel_left_eq] at same
        obtain ⟨first,same⟩ := stringify_inj (depth + 1) v w _ _ (stops_items _ _ _) (stops_items _ _ _) same
        obtain ⟨rest,same⟩ := items_inj depth vs ws _ _ same
        exact ⟨by rw [first,rest],by simpa using same⟩
    | _ => exact absurd (kind_eq same) (by simp [kind])
  | .obj [],w,r,s,_,_,same => by
    cases w with
    | obj members => cases members with
      | nil => exact ⟨rfl,List.append_cancel_left same⟩
      | cons first rest =>
        simp only [stringify,List.append_assoc,List.cons_append] at same
        exact absurd (List.cons.inj (List.cons.inj same).2).1 (by decide)
    | _ => exact absurd (kind_eq same) (by simp [kind])
  | .obj ((key,v)::vs),w,r,s,_,_,same => by
    cases w with
    | obj members => cases members with
      | nil =>
        simp only [stringify,List.append_assoc,List.cons_append] at same
        exact absurd (List.cons.inj (List.cons.inj same).2).1 (by decide)
      | cons first ws =>
        obtain ⟨other,w⟩ := first
        simp only [stringify,List.append_assoc,List.cons_append,List.cons.injEq,true_and,List.append_cancel_left_eq] at same
        obtain ⟨names,same⟩ := quote_inj same
        rw [List.append_cancel_left_eq] at same
        obtain ⟨first,same⟩ := stringify_inj (depth + 1) v w _ _ (stops_members _ _ _) (stops_members _ _ _) same
        obtain ⟨rest,same⟩ := members_inj depth vs ws _ _ same
        exact ⟨by rw [names,first,rest],by simpa using same⟩
    | _ => exact absurd (kind_eq same) (by simp [kind])

theorem items_inj (depth : Nat) : ∀ (vs ws : List Json) (r s : List Char),
    stringifyItems 2 depth vs ++ (lineBreak 2 depth ++ r) = stringifyItems 2 depth ws ++ (lineBreak 2 depth ++ s) → vs = ws ∧ r = s
  | [],[],_,_,same => ⟨rfl,List.append_cancel_left same⟩
  | [],_::_,_,_,same => by simp [stringifyItems,lineBreak] at same
  | _::_,[],_,_,same => by simp [stringifyItems,lineBreak] at same
  | v::vs,w::ws,r,s,same => by
    simp only [stringifyItems,List.append_assoc,List.cons_append,List.cons.injEq,true_and,List.append_cancel_left_eq] at same
    obtain ⟨first,same⟩ := stringify_inj (depth + 1) v w _ _ (stops_items _ _ _) (stops_items _ _ _) same
    obtain ⟨rest,same⟩ := items_inj depth vs ws r s same
    exact ⟨by rw [first,rest],same⟩

theorem members_inj (depth : Nat) : ∀ (vs ws : List (String × Json)) (r s : List Char),
    stringifyMembers 2 depth vs ++ (lineBreak 2 depth ++ r) = stringifyMembers 2 depth ws ++ (lineBreak 2 depth ++ s) → vs = ws ∧ r = s
  | [],[],_,_,same => ⟨rfl,List.append_cancel_left same⟩
  | [],(_,_)::_,_,_,same => by simp [stringifyMembers,lineBreak] at same
  | (_,_)::_,[],_,_,same => by simp [stringifyMembers,lineBreak] at same
  | (key,v)::vs,(other,w)::ws,r,s,same => by
    simp only [stringifyMembers,List.append_assoc,List.cons_append,List.cons.injEq,true_and,List.append_cancel_left_eq] at same
    obtain ⟨names,same⟩ := quote_inj same
    rw [List.append_cancel_left_eq] at same
    obtain ⟨first,same⟩ := stringify_inj (depth + 1) v w _ _ (stops_members _ _ _) (stops_members _ _ _) same
    obtain ⟨rest,same⟩ := members_inj depth vs ws r s same
    exact ⟨by rw [names,first,rest],same⟩
end

theorem serialize_eq : serialize v = serialize w ↔ normalize v = normalize w := by
  constructor
  · intro same
    have chars := String.ofList_inj.mp same
    have stop : Stops ['\n'] := by
      intro char first
      cases Option.some.inj first
      decide
    exact (stringify_inj 0 _ _ _ _ stop stop chars).1
  · intro same
    rw [serialize,serialize,same]

theorem same_iff : same a b = true ↔ normalize (orElse a .null) = normalize (orElse b .null) := by
  rw [same,decide_eq_true_eq,serialize_eq]

end Zveltio.SchemaText

import Zveltio.SqlStatements
namespace Zveltio.SqlScan
open SqlLexer (space identChar tagChar identStart)
open SqlTables SqlStatements

theorem nameChar_ident {char : Char} (held : nameChar char = true) : identChar char = true := by
  simp only [nameChar,wordChar,Char.isAlphanum,Bool.or_eq_true,decide_eq_true_eq] at held
  simp only [identChar,tagChar,identStart,Bool.or_eq_true,decide_eq_true_eq]
  tauto

theorem wordChar_name {char : Char} (held : wordChar char = true) : nameChar char = true := by simp [nameChar,held]

theorem toLower_cases (char : Char) : char.toLower = char ∨ char.isAlpha = true ∧ char.toLower.isAlpha = true := by
  by_cases ascii : char.toNat < 128
  · have each : ∀ code < 128, (Char.ofNat code).toLower = Char.ofNat code ∨
        (Char.ofNat code).isAlpha = true ∧ (Char.ofNat code).toLower.isAlpha = true := by decide +kernel
    have held := each char.toNat ascii
    rwa [Char.ofNat_toNat] at held
  · refine .inl ?_
    unfold Char.toLower
    split
    · next upper =>
      have bound : char.toNat ≤ 90 := upper.2
      omega
    · rfl

theorem alpha_code {char : Char} (letter : char.isAlpha = true) : 65 ≤ char.toNat ∧ char.toNat ≤ 90 ∨ 97 ≤ char.toNat ∧ char.toNat ≤ 122 := by
  rcases (Bool.or_eq_true ..).mp (show (char.isUpper || char.isLower) = true from letter) with upper | lower
  · exact .inl (of_decide_eq_true upper)
  · obtain ⟨low,high⟩ := (Bool.and_eq_true ..).mp lower
    exact .inr ⟨of_decide_eq_true low,of_decide_eq_true high⟩

theorem alpha_name {char : Char} (letter : char.isAlpha = true) : wordChar char = true ∧ nameChar char = true ∧ identChar char = true ∧
    white char = false := by
  have word : wordChar char = true := by simp [wordChar,Char.isAlphanum,letter]
  refine ⟨word,wordChar_name word,nameChar_ident (wordChar_name word),?_⟩
  have range : 65 ≤ char.toNat ∧ char.toNat ≤ 122 := by
    rcases alpha_code letter with range | range <;> omega
  have each : ∀ code ≤ 122, 65 ≤ code → white (Char.ofNat code) = false := by decide +kernel
  have held := each char.toNat range.2 range.1
  rwa [Char.ofNat_toNat] at held

theorem lower_same (char : Char) : wordChar char.toLower = wordChar char ∧ nameChar char.toLower = nameChar char ∧
    white char.toLower = white char ∧ identChar char.toLower = identChar char := by
  rcases toLower_cases char with same | ⟨before,after⟩
  · rw [same]
    exact ⟨rfl,rfl,rfl,rfl⟩
  · obtain ⟨a,b,c,d⟩ := alpha_name before
    obtain ⟨e,f,g,h⟩ := alpha_name after
    exact ⟨e.trans a.symm,f.trans b.symm,h.trans d.symm,g.trans c.symm⟩

def Sound (token : Token) : Prop := token.lexical = true ∧ token.readable = true

theorem word_chars (sound : Sound (.word apart word)) (spelled : Spells (.word apart word) chars) :
    chars ≠ [] ∧ ∀ char ∈ chars, identChar char = true ∧ white char = false := by
  obtain ⟨lexical,readable⟩ := sound
  simp only [Token.lexical,Bool.and_eq_true,decide_eq_true_eq,List.all_eq_true] at lexical
  simp only [Token.readable,List.all_eq_true,Bool.not_eq_true'] at readable
  constructor
  · rintro rfl
    exact lexical.1 (List.map_eq_nil_iff.mp spelled.symm)
  · intro char member
    have inside : char.toLower ∈ lower word := spelled ▸ List.mem_map_of_mem member
    obtain ⟨other,held,same⟩ := List.mem_map.mp inside
    obtain ⟨_,_,white_same,ident_same⟩ := lower_same char
    obtain ⟨_,_,white_other,ident_other⟩ := lower_same other
    exact ⟨by rw [← ident_same,← same,ident_other,lexical.2 other held],by rw [← white_same,← same,white_other,readable other held]⟩

def Follows (tokens : List Token) : Prop := tokens.head? ≠ some (.mark '.') ∧ tokens.head? ≠ some (.mark '(')

theorem name_mark (name : Name) (char : Char) : name.token ≠ .mark char := by
  unfold Name.token
  split <;> simp

-- What stands before the innermost open parenthesis, backwards.
def opener : Nat → List Token → Option (List Token)
  | _,[] => none
  | depth,.mark ')'::rest => opener (depth + 1) rest
  | 0,.mark '('::rest => some rest
  | depth + 1,.mark '('::rest => opener depth rest
  | depth,_::rest => opener depth rest

theorem opener_plain {token : Token} (open_ : token ≠ .mark '(') (close : token ≠ .mark ')') (depth : Nat) (rest : List Token) :
    opener depth (token::rest) = opener depth rest := by
  rw [opener.eq_5]
  · exact fun wrong => close wrong
  · exact fun _ wrong => open_ wrong
  · exact fun _ _ wrong => open_ wrong

theorem space_plain {char : Char} (blank : space char = true) : char ≠ '(' ∧ char ≠ ')' := by
  constructor <;> rintro rfl <;> exact absurd blank (by decide)

-- FROM behind these tokens starts a table list.
structure Fit (tokens : List Token) : Prop where
  plain : comparesDistinct tokens = false
  outside : ∀ apart word rest, opener 0 tokens.reverse = some (.word apart word::rest) → endsKeywordArgFn word = false

-- The scan comes to the end of these tokens with a table entry to read.
inductive Reach : List Token → Prop where
  | listed (fit : Fit tokens) : Reach (tokens ++ [keyword "from"])
  | joined : Reach (tokens ++ [keyword "join"])
  | comma (reach : Reach tokens) (readable : schema.all Name.readable = true ∧ name.readable = true) (bare : label.all Alias.bare = true) :
      Reach (tokens ++ (tableTokens schema name ++ aliasTokens label ++ [.mark ',']))

def Occurs (whole : List Token) (found : Found) : Prop :=
  ∃ before after, whole = before ++ (tableTokens found.schema found.name ++ after) ∧ Reach before ∧ Follows after

end Zveltio.SqlScan

import Zveltio.SqlScan
namespace Zveltio.SqlPositions
open SqlLexer (space)
open SqlTables SqlStatements SqlScan

-- Tokens whose parentheses close inside them.
def Balanced (tokens : List Token) : Prop := ∀ depth rest, opener depth (tokens.reverse ++ rest) = opener depth rest

theorem balanced_nil : Balanced [] := fun _ _ => rfl

theorem balanced_append (first : Balanced one) (second : Balanced two) : Balanced (one ++ two) := by
  intro depth rest
  rw [List.reverse_append,List.append_assoc,second,first]

theorem balanced_token (open_ : token ≠ .mark '(') (close : token ≠ .mark ')') : Balanced [token] :=
  fun depth rest => opener_plain open_ close depth rest

theorem balanced_cons (open_ : token ≠ .mark '(') (close : token ≠ .mark ')') (rest : Balanced tokens) : Balanced (token::tokens) :=
  balanced_append (balanced_token open_ close) rest

theorem balanced_word (apart : Bool) (word : List Char) (rest : Balanced tokens) : Balanced (.word apart word::tokens) := balanced_cons (by simp) (by simp) rest

theorem balanced_name (name : Name) (rest : Balanced tokens) : Balanced (name.token::tokens) :=
  balanced_cons (name_mark name _) (name_mark name _) rest

theorem balanced_parens (inner : Balanced tokens) (rest : Balanced others) : Balanced (.mark '('::tokens ++ .mark ')'::others) := by
  intro depth more
  have turned : (.mark '('::tokens ++ .mark ')'::others : List Token).reverse ++ more =
      others.reverse ++ (.mark ')'::(tokens.reverse ++ (.mark '('::more))) := by simp
  rw [turned,rest,opener,inner,opener]

theorem balanced_columns (columns : List Name) : Balanced (columnTokens columns) := by
  cases columns with
  | nil => exact balanced_nil
  | cons first columns =>
    have each : Balanced (first.token::columns.flatMap fun name => [.mark ',',name.token]) := by
      refine balanced_name _ ?_
      induction columns with
      | nil => exact balanced_nil
      | cons name columns ih =>
        rw [List.flatMap_cons]
        exact balanced_cons (by decide) (by decide) (balanced_name _ ih)
    have whole := balanced_parens each balanced_nil
    simpa [columnTokens] using whole

theorem balanced_alias (label : Option Alias) : Balanced (aliasTokens label) := by
  cases label with
  | none => exact balanced_nil
  | some held =>
    refine balanced_append (balanced_append ?_ (balanced_name _ balanced_nil)) (balanced_columns _)
    split
    · exact balanced_word _ _ balanced_nil
    · exact balanced_nil

theorem balanced_lateral (isLateral : Bool) : Balanced (lateralTokens isLateral) := by
  cases isLateral
  · exact balanced_nil
  · exact balanced_word _ _ balanced_nil

theorem balanced_hint (hint : Option Bool) : Balanced (hintTokens hint) := by
  rcases hint with _ | (_ | _)
  · exact balanced_nil
  · exact balanced_word _ _ (balanced_word _ _ balanced_nil)
  · exact balanced_word _ _ balanced_nil

theorem balanced_words (words : List (List Char)) : Balanced (words.map (Token.word false)) := by
  induction words with
  | nil => exact balanced_nil
  | cons word words ih => exact balanced_word _ _ ih

theorem balanced_table (schema : Option Name) (name : Name) : Balanced (tableTokens schema name) := by
  cases schema with
  | none => exact balanced_name _ balanced_nil
  | some held => exact balanced_name _ (balanced_cons (by decide) (by decide) (balanced_name _ balanced_nil))

theorem balanced_if (cond : Bool) (held : Balanced tokens) : Balanced (if cond then [] else tokens) := by
  cases cond
  · exact held
  · exact balanced_nil

def withTokens (recursive : Bool) (ctes : Ctes) : List Token :=
  if ctes.isNone then [] else keyword "with"::if recursive then [keyword "recursive"] else []

theorem balanced_with (recursive : Bool) (ctes : Ctes) : Balanced (withTokens recursive ctes) := by
  refine balanced_if _ (balanced_word _ _ ?_)
  split
  · exact balanced_word _ _ balanced_nil
  · exact balanced_nil

mutual
theorem query_balanced : ∀ query : Query, Balanced query.tokens
  | .select recursive ctes targets items clauses => by
    have front := balanced_append (balanced_with recursive ctes) (ctes_balanced ctes)
    have listed := balanced_append (balanced_append (balanced_append front
      (balanced_word false "select".toList (expression_balanced targets)))
      (balanced_if items.isNone (balanced_word false "from".toList balanced_nil))) (items_balanced items)
    exact balanced_append listed (clauses_balanced clauses)

theorem ctes_balanced : ∀ ctes : Ctes, Balanced ctes.tokens
  | .none => balanced_nil
  | .cte name columns materialized query rest => by
    have behind := balanced_append (balanced_if rest.isNone (balanced_cons (show Token.mark ',' ≠ _ by decide) (by decide) balanced_nil))
      (ctes_balanced rest)
    have body := balanced_name name (balanced_append (balanced_columns columns) (balanced_word false "as".toList
      (balanced_append (balanced_hint materialized) (balanced_parens (query_balanced query) behind))))
    simpa [Ctes.tokens,keyword] using body

theorem expression_balanced : ∀ expression : Expression, Balanced expression.tokens
  | .done => balanced_nil
  | .leaf leaf rest => balanced_cons leaf.2.1 leaf.2.2 (expression_balanced rest)
  | .parens inner rest => balanced_parens (expression_balanced inner) (expression_balanced rest)
  | .subquery query rest => balanced_parens (query_balanced query) (expression_balanced rest)

theorem items_balanced : ∀ items : Items, Balanced items.tokens
  | .none => balanced_nil
  | .item item rest => balanced_append (balanced_append (item_balanced item)
      (balanced_if _ (balanced_cons (by decide) (by decide) balanced_nil))) (items_balanced rest)

theorem item_balanced : ∀ item : Item, Balanced item.tokens
  | .table schema name label => balanced_append (balanced_table schema name) (balanced_alias label)
  | .subquery isLateral query label => by
    have body := balanced_append (balanced_lateral isLateral) (balanced_parens (query_balanced query) (balanced_alias label))
    simpa [Item.tokens] using body
  | .call isLateral name args label => by
    have body := balanced_append (balanced_lateral isLateral) (balanced_name name
      (balanced_parens (expression_balanced args) (balanced_alias label)))
    simpa [Item.tokens] using body
  | .join left kind right on => by
    have body := balanced_append (balanced_append (item_balanced left) (balanced_words kind))
      (balanced_word false "join".toList (balanced_append (item_balanced right) (clauses_balanced on)))
    simpa [Item.tokens,keyword] using body
  | .parens item label => balanced_parens (item_balanced item) (balanced_alias label)

theorem clauses_balanced : ∀ clauses : Clauses, Balanced clauses.tokens
  | .none => balanced_nil
  | .clause _ body rest => balanced_append (balanced_word _ _ (expression_balanced body)) (clauses_balanced rest)
end

theorem front_balanced (recursive : Bool) (ctes : Ctes) (targets : Expression) :
    Balanced (withTokens recursive ctes ++ ctes.tokens ++ keyword "select"::targets.tokens) :=
  balanced_append (balanced_append (balanced_with recursive ctes) (ctes_balanced ctes)) (balanced_word _ _ (expression_balanced targets))

theorem takes_none (apart other : Bool) (rest front : List Token) (held : takesNoQuery (front ++ .word apart word::.mark '('::.word other next::rest) = true)
    (opens : lower next ∈ ["select".toList,"with".toList]) : endsKeywordArgFn word = false := by
  induction front with
  | nil =>
    rcases (Bool.or_eq_true ..).mp ((Bool.and_eq_true ..).mp held).1 with other | plain
    · exact absurd opens (of_decide_eq_true other)
    · simpa using plain
  | cons token front ih =>
    refine ih ?_
    cases token with
    | word apart chars => exact ((Bool.and_eq_true ..).mp held).2
    | quoted apart chars => exact held
    | mark char => exact held

-- A query stands at the start or directly in parentheses.
def Inside (before : List Token) : Prop := before = [] ∨ ∃ outer, before = outer ++ [.mark '(']

theorem query_opens (query : Query) : ∃ word rest, query.tokens = .word false word::rest ∧ lower word ∈ ["select".toList,"with".toList] := by
  cases query with
  | select recursive ctes targets items clauses =>
    cases ctes with
    | none => exact ⟨"select".toList,_,rfl,by decide⟩
    | cte => exact ⟨"with".toList,_,rfl,by decide⟩

theorem fit_from {query : Query} (whole_fits : takesNoQuery whole = true) (equal : whole = before ++ (query.tokens ++ after)) (inside : Inside before)
    (balanced : Balanced front) (plain : comparesDistinct (before ++ front) = false) : Fit (before ++ front) := by
  refine ⟨plain,fun apart word rest found => ?_⟩
  rw [List.reverse_append,balanced] at found
  rcases inside with rfl | ⟨outer,rfl⟩
  · cases found
  · rw [List.reverse_append,List.reverse_singleton,List.singleton_append,opener] at found
    have outer_there : outer = rest.reverse ++ [.word apart word] := by
      have turned := congrArg List.reverse (Option.some.inj found)
      simpa using turned
    obtain ⟨next,others,opens,listed⟩ := query_opens query
    rw [equal,outer_there,opens] at whole_fits
    refine takes_none apart false (others ++ after) rest.reverse ?_ listed
    simpa using whole_fits

theorem compares_front {targets : List Token} (plain : comparesDistinct targets = false) (front : List Token) :
    comparesDistinct (front ++ keyword "select"::targets) = false := by
  have turned : (front ++ keyword "select"::targets).reverse = targets.reverse ++ keyword "select"::front.reverse := by simp
  have no_is : endsIs "select".toList = false := by decide
  have no_not : decide (lower "select".toList = "not".toList) = false := by decide
  unfold comparesDistinct at plain ⊢
  rw [turned]
  match held : targets.reverse with
  | [] =>
    rw [List.nil_append,keyword]
    cases front.reverse with
    | nil => rfl
    | cons token rest =>
      cases token <;> rfl
  | [one] =>
    cases one <;> first | rfl | skip
    refine Bool.and_eq_false_imp.mpr fun _ => ?_
    rw [no_is,no_not]
    rfl
  | [one,two] =>
    rw [held] at plain
    cases one <;> first | rfl | skip
    cases two <;> first | rfl | skip
    refine Bool.and_eq_false_imp.mpr fun last => ?_
    have before := Bool.and_eq_false_imp.mp plain last
    rw [Bool.or_eq_false_iff] at before ⊢
    refine ⟨before.1,Bool.and_eq_false_imp.mpr fun _ => ?_⟩
    exact no_is
  | one::two::three::rest =>
    rw [held] at plain
    cases one <;> first | rfl | skip
    cases two <;> first | rfl | skip
    cases three <;> exact plain

theorem follows_alias (follows : Follows after) (label : Option Alias) : Follows (aliasTokens label ++ after) := by
  cases label with
  | none => exact follows
  | some held =>
    cases labelled : held.labelled with
    | true =>
      simp [aliasTokens,labelled,Follows,keyword]
    | false =>
      have plain : aliasTokens (some held) ++ after = held.name.token::(columnTokens held.columns ++ after) := by simp [aliasTokens,labelled]
      rw [plain]
      constructor <;> exact fun wrong => name_mark held.name _ (Option.some.inj wrong)

theorem follows_mark (char : Char) (dot : char ≠ '.') (open_ : char ≠ '(') : Follows (.mark char::after) := by
  constructor <;> intro wrong <;> cases Option.some.inj wrong
  · exact dot rfl
  · exact open_ rfl

theorem follows_word : Follows (.word apart word::after) := by simp [Follows]

theorem follows_clauses (follows : Follows after) (clauses : Clauses) : Follows (clauses.tokens ++ after) := by
  cases clauses with
  | none => exact follows
  | clause word body rest => exact follows_word

mutual
theorem query_occurs (fits : takesNoQuery whole = true) : ∀ (query : Query) (scope : List (List Char)) (before after : List Token),
    whole = before ++ (query.tokens ++ after) → Inside before → Follows after → ∀ found ∈ query.tables scope, found.reached = true → Occurs whole found
  | .select recursive ctes targets items clauses,scope,before,after,equal,inside,follows => by
    intro found member reached
    simp only [Query.tables,List.mem_append,or_assoc] at member
    rcases member with member | member | member | member
    · refine ctes_occurs fits ctes recursive _ (before ++ withTokens recursive ctes)
        (keyword "select"::targets.tokens ++ (if items.isNone then [] else [keyword "from"]) ++ items.tokens ++ clauses.tokens ++ after) ?_
        found member reached
      rw [equal]
      simp [Query.tokens,withTokens]
    · refine expression_occurs fits targets _ (before ++ withTokens recursive ctes ++ ctes.tokens ++ [keyword "select"])
        ((if items.isNone then [] else [keyword "from"]) ++ items.tokens ++ clauses.tokens ++ after) ?_ found member reached
      rw [equal]
      simp [Query.tokens,withTokens]
    · cases items with
      | none => cases member
      | item first rest =>
        refine items_occurs fits (.item first rest) _ _ (before ++ (withTokens recursive ctes ++ ctes.tokens ++ keyword "select"::targets.tokens) ++
          [keyword "from"]) (clauses.tokens ++ after) ?_ (fun plain => ?_) (follows_clauses follows clauses) found member reached
        · rw [equal]
          simp [Query.tokens,withTokens,Items.isNone]
        · have compared : comparesDistinct targets.tokens = false := by simpa using plain
          refine .listed (fit_from fits equal inside (front_balanced recursive ctes targets) ?_)
          rw [← List.append_assoc]
          exact compares_front compared _
    · refine clauses_occurs fits clauses _ (before ++ withTokens recursive ctes ++ ctes.tokens ++ keyword "select"::targets.tokens ++
        (if items.isNone then [] else [keyword "from"]) ++ items.tokens) after ?_ found member reached
      rw [equal]
      simp [Query.tokens,withTokens]

theorem ctes_occurs (fits : takesNoQuery whole = true) : ∀ (ctes : Ctes) (recursive : Bool) (scope : List (List Char)) (before after : List Token),
    whole = before ++ (ctes.tokens ++ after) → ∀ found ∈ ctes.tables recursive scope, found.reached = true → Occurs whole found
  | .none,_,_,_,_,_ => by
    intro found member
    cases member
  | .cte name columns materialized query rest,recursive,scope,before,after,equal => by
    intro found member reached
    simp only [Ctes.tables,List.mem_append] at member
    rcases member with member | member
    · refine query_occurs fits query scope (before ++ (name.token::columnTokens columns ++ keyword "as"::hintTokens materialized) ++ [.mark '('])
        (.mark ')'::(if rest.isNone then [] else [.mark ',']) ++ rest.tokens ++ after) ?_ (.inr ⟨_,rfl⟩)
        (follows_mark ')' (by decide) (by decide)) found member reached
      rw [equal]
      simp [Ctes.tokens]
    · refine ctes_occurs fits rest recursive _ (before ++ (name.token::columnTokens columns ++ keyword "as"::hintTokens materialized ++
        .mark '('::query.tokens ++ .mark ')'::(if rest.isNone then [] else [.mark ',']))) after ?_ found member reached
      rw [equal]
      simp [Ctes.tokens]

theorem expression_occurs (fits : takesNoQuery whole = true) : ∀ (expression : Expression) (scope : List (List Char)) (before after : List Token),
    whole = before ++ (expression.tokens ++ after) → ∀ found ∈ expression.tables scope, found.reached = true → Occurs whole found
  | .done,_,_,_,_ => by
    intro found member
    cases member
  | .leaf leaf rest,scope,before,after,equal => by
    refine expression_occurs fits rest scope (before ++ [leaf.1]) after ?_
    rw [equal]
    simp [Expression.tokens]
  | .parens inner rest,scope,before,after,equal => by
    intro found member reached
    rcases List.mem_append.mp member with member | member
    · refine expression_occurs fits inner scope (before ++ [.mark '(']) (.mark ')'::rest.tokens ++ after) ?_ found member reached
      rw [equal]
      simp [Expression.tokens]
    · refine expression_occurs fits rest scope (before ++ (.mark '('::inner.tokens ++ [.mark ')'])) after ?_ found member reached
      rw [equal]
      simp [Expression.tokens]
  | .subquery query rest,scope,before,after,equal => by
    intro found member reached
    rcases List.mem_append.mp member with member | member
    · refine query_occurs fits query scope (before ++ [.mark '(']) (.mark ')'::rest.tokens ++ after) ?_ (.inr ⟨_,rfl⟩)
        (follows_mark ')' (by decide) (by decide)) found member reached
      rw [equal]
      simp [Expression.tokens]
    · refine expression_occurs fits rest scope (before ++ (.mark '('::query.tokens ++ [.mark ')'])) after ?_ found member reached
      rw [equal]
      simp [Expression.tokens]

theorem items_occurs (fits : takesNoQuery whole = true) : ∀ (items : Items) (scope : List (List Char)) (reach : Bool) (before after : List Token),
    whole = before ++ (items.tokens ++ after) → (reach = true → Reach before) → Follows after →
    ∀ found ∈ items.tables scope reach, found.reached = true → Occurs whole found
  | .none,_,_,_,_,_,_,_ => by
    intro found member
    cases member
  | .item item rest,scope,reach,before,after,equal,reaches,follows => by
    intro found member reached
    rcases List.mem_append.mp member with member | member
    · refine item_occurs fits item scope reach before ((if rest.isNone then [] else [.mark ',']) ++ rest.tokens ++ after) ?_ reaches ?_
        found member reached
      · rw [equal]
        simp [Items.tokens]
      · cases rest with
        | none => exact follows
        | item => exact follows_mark ',' (by decide) (by decide)
    · refine items_occurs fits rest scope (reach && item.bare) (before ++ (item.tokens ++ if rest.isNone then [] else [.mark ','])) after ?_ ?_
        follows found member reached
      · rw [equal]
        simp [Items.tokens]
      · intro chained
        obtain ⟨reach_there,bare⟩ := (Bool.and_eq_true ..).mp chained
        cases rest with
        | none => cases member
        | item next others =>
          cases item with
          | table schema name label =>
            simp only [Item.bare,Bool.and_eq_true] at bare
            exact .comma (reaches reach_there) bare.1 bare.2
          | _ => cases bare

theorem item_occurs (fits : takesNoQuery whole = true) : ∀ (item : Item) (scope : List (List Char)) (reach : Bool) (before after : List Token),
    whole = before ++ (item.tokens ++ after) → (reach = true → Reach before) → Follows after →
    ∀ found ∈ item.tables scope reach, found.reached = true → Occurs whole found
  | .table schema name label,scope,reach,before,after,equal,reaches,follows => by
    intro found member reached
    simp only [Item.tables] at member
    split at member
    · cases member
    · cases List.mem_singleton.mp member
      refine ⟨before,aliasTokens label ++ after,?_,reaches reached,follows_alias follows label⟩
      rw [equal]
      simp [Item.tokens]
  | .subquery isLateral query label,scope,reach,before,after,equal,_,_ => by
    refine query_occurs fits query scope (before ++ lateralTokens isLateral ++ [.mark '(']) (.mark ')'::aliasTokens label ++ after) ?_
      (.inr ⟨_,rfl⟩) (follows_mark ')' (by decide) (by decide))
    rw [equal]
    simp [Item.tokens]
  | .call isLateral name args label,scope,reach,before,after,equal,_,_ => by
    refine expression_occurs fits args scope (before ++ lateralTokens isLateral ++ [name.token,.mark '(']) (.mark ')'::aliasTokens label ++ after) ?_
    rw [equal]
    simp [Item.tokens]
  | .join left kind right on,scope,reach,before,after,equal,reaches,follows => by
    intro found member reached
    simp only [Item.tables,List.mem_append,or_assoc] at member
    rcases member with member | member | member
    · refine item_occurs fits left scope reach before (kind.map (Token.word false) ++ keyword "join"::right.tokens ++ on.tokens ++ after) ?_ reaches ?_
        found member reached
      · rw [equal]
        simp [Item.tokens]
      · cases kind with
        | nil => exact follows_word
        | cons word kind => exact follows_word
    · refine item_occurs fits right scope true (before ++ left.tokens ++ kind.map (Token.word false) ++ [keyword "join"]) (on.tokens ++ after) ?_
        (fun _ => .joined) (follows_clauses follows on) found member reached
      rw [equal]
      simp [Item.tokens]
    · refine clauses_occurs fits on scope (before ++ left.tokens ++ kind.map (Token.word false) ++ keyword "join"::right.tokens) after ?_
        found member reached
      rw [equal]
      simp [Item.tokens]
  | .parens item label,scope,reach,before,after,equal,_,_ => by
    refine item_occurs fits item scope false (before ++ [.mark '(']) (.mark ')'::aliasTokens label ++ after) ?_ (fun wrong => nomatch wrong)
      (follows_mark ')' (by decide) (by decide))
    rw [equal]
    simp [Item.tokens]

theorem clauses_occurs (fits : takesNoQuery whole = true) : ∀ (clauses : Clauses) (scope : List (List Char)) (before after : List Token),
    whole = before ++ (clauses.tokens ++ after) → ∀ found ∈ clauses.tables scope, found.reached = true → Occurs whole found
  | .none,_,_,_,_ => by
    intro found member
    cases member
  | .clause word body rest,scope,before,after,equal => by
    intro found member reached
    rcases List.mem_append.mp member with member | member
    · refine expression_occurs fits body scope (before ++ [.word false word]) (rest.tokens ++ after) ?_ found member reached
      rw [equal]
      simp [Clauses.tokens]
    · refine clauses_occurs fits rest scope (before ++ .word false word::body.tokens) after ?_ found member reached
      rw [equal]
      simp [Clauses.tokens]
end

-- A name that is the same in lower case.
def Name.lowered (name : Name) : Bool := !name.quoted || lower name.chars = name.chars

local instance lawful : LawfulBEq (List Char) := inferInstance

def spell : List Token → List Char
  | [] => []
  | .word _ chars::rest => ' '::chars ++ spell rest
  | .quoted _ chars::rest => ' ':: '\x22'::chars ++ '\x22'::spell rest
  | .mark char::rest => ' '::char::spell rest

def crm : Policy := ⟨"crm".toList,[],["zvd_permissions".toList],[]⟩

def plain (word : String) : Name := ⟨false,false,word.toList⟩

def star : Expression := .leaf ⟨.mark '*',by decide⟩ .done

-- SELECT * FROM zvd_orders AS o, session
def labelled : Query := .select false .none star (.item (.table none (plain "zvd_orders") (some ⟨true,plain "o",[]⟩))
  (.item (.table none (plain "session") none) .none)) .none

-- WITH recent AS (SELECT * FROM zvd_orders o, zvd_items) SELECT * FROM recent JOIN zvd_people ON true
def recent : Query := .select false (.cte (plain "recent") [] none (.select false .none star (.item (.table none (plain "zvd_orders")
  (some ⟨false,⟨false,true,['o']⟩,[]⟩)) (.item (.table none (plain "zvd_items") none) .none)) .none) .none) star
  (.item (.join (.table none (plain "recent") none) [] (.table none (plain "zvd_people") none)
    (.clause "on".toList (.leaf ⟨keyword "true",by decide⟩ .done) .none)) .none) .none

end Zveltio.SqlPositions

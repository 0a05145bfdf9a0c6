import Zveltio.SqlTables
namespace Zveltio.SqlStatements
open SqlLexer (space identChar)
open SqlTables

-- A token of the code; apart says that white space stands before it.
inductive Token where
  | word (apart : Bool) (chars : List Char)
  | quoted (apart : Bool) (chars : List Char)
  | mark (char : Char)
  deriving DecidableEq

def keyword (word : String) : Token := .word false word.toList

structure Name where
  quoted : Bool
  apart : Bool
  chars : List Char
  deriving DecidableEq

def Name.token (name : Name) : Token := if name.quoted then .quoted name.apart name.chars else .word name.apart name.chars

-- The name PostgreSQL looks up: only an unquoted one is folded.
def Name.folded (name : Name) : List Char := if name.quoted then name.chars else lower name.chars

-- What an expression is made of besides parentheses.
def Leaf := {token : Token // token ≠ .mark '(' ∧ token ≠ .mark ')'}

structure Alias where
  labelled : Bool
  name : Name
  columns : List Name

-- A SELECT: its CTEs, its select list, its FROM list, and the clauses behind (WHERE, GROUP BY, WINDOW ...).
-- Expressions are kept as far as parentheses and subqueries go.
mutual
inductive Query where
  | select (recursive : Bool) (ctes : Ctes) (targets : Expression) (items : Items) (clauses : Clauses)
inductive Ctes where
  | none
  | cte (name : Name) (columns : List Name) (materialized : Option Bool) (query : Query) (rest : Ctes)
inductive Expression where
  | done
  | leaf (leaf : Leaf) (rest : Expression)
  | parens (inner rest : Expression)
  | subquery (query : Query) (rest : Expression)
inductive Items where
  | none
  | item (item : Item) (rest : Items)
inductive Item where
  | table (schema : Option Name) (name : Name) (label : Option Alias)
  | subquery (isLateral : Bool) (query : Query) (label : Option Alias)
  | call (isLateral : Bool) (name : Name) (args : Expression) (label : Option Alias)
  | join (left : Item) (kind : List (List Char)) (right : Item) (on : Clauses)
  | parens (item : Item) (label : Option Alias)
inductive Clauses where
  | none
  | clause (word : List Char) (body : Expression) (rest : Clauses)
end

def Ctes.isNone : Ctes → Bool
  | .none => true
  | .cte .. => false

def Items.isNone : Items → Bool
  | .none => true
  | .item .. => false

def columnTokens : List Name → List Token
  | [] => []
  | first::rest => [.mark '(',first.token] ++ rest.flatMap (fun name => [.mark ',',name.token]) ++ [.mark ')']

def aliasTokens : Option Alias → List Token
  | none => []
  | some held => (if held.labelled then [keyword "as"] else []) ++ [held.name.token] ++ columnTokens held.columns

def lateralTokens (isLateral : Bool) : List Token := if isLateral then [keyword "lateral"] else []

def hintTokens : Option Bool → List Token
  | none => []
  | some true => [keyword "materialized"]
  | some false => [keyword "not",keyword "materialized"]

def tableTokens (schema : Option Name) (name : Name) : List Token := match schema with
  | none => [name.token]
  | some held => [held.token,.mark '.',name.token]

mutual
def Query.tokens : Query → List Token
  | .select recursive ctes targets items clauses =>
    (if ctes.isNone then [] else keyword "with"::if recursive then [keyword "recursive"] else []) ++ ctes.tokens ++
      keyword "select"::targets.tokens ++ (if items.isNone then [] else [keyword "from"]) ++ items.tokens ++ clauses.tokens
def Ctes.tokens : Ctes → List Token
  | .none => []
  | .cte name columns materialized query rest =>
    name.token::columnTokens columns ++ keyword "as"::hintTokens materialized ++ .mark '('::query.tokens ++ .mark ')'::
      (if rest.isNone then [] else [.mark ',']) ++ rest.tokens
def Expression.tokens : Expression → List Token
  | .done => []
  | .leaf leaf rest => leaf.1::rest.tokens
  | .parens inner rest => .mark '('::inner.tokens ++ .mark ')'::rest.tokens
  | .subquery query rest => .mark '('::query.tokens ++ .mark ')'::rest.tokens
def Items.tokens : Items → List Token
  | .none => []
  | .item item rest => item.tokens ++ (if rest.isNone then [] else [.mark ',']) ++ rest.tokens
def Item.tokens : Item → List Token
  | .table schema name label => tableTokens schema name ++ aliasTokens label
  | .subquery isLateral query label => lateralTokens isLateral ++ .mark '('::query.tokens ++ .mark ')'::aliasTokens label
  | .call isLateral name args label => lateralTokens isLateral ++ name.token::.mark '('::args.tokens ++ .mark ')'::aliasTokens label
  | .join left kind right on => left.tokens ++ kind.map (Token.word false) ++ keyword "join"::right.tokens ++ on.tokens
  | .parens item label => .mark '('::item.tokens ++ .mark ')'::aliasTokens label
def Clauses.tokens : Clauses → List Token
  | .none => []
  | .clause word body rest => .word false word::body.tokens ++ rest.tokens
end

def Ctes.names : Ctes → List (List Char)
  | .none => []
  | .cte name _ _ _ rest => name.folded::rest.names

-- A name the scan reads whole: no STOP word, no character outside its own alphabet.
def Name.readable (name : Name) : Bool :=
  if name.quoted then name.chars ≠ [] && '\x22' ∉ name.chars
  else name.chars.head?.any nameStart && name.chars.all nameChar && wordAt name.chars ∉ STOP

-- An alias the scan steps over.
def Alias.bare (held : Alias) : Bool := !held.labelled && held.columns.isEmpty && held.name.readable && held.name.apart

def Item.bare : Item → Bool
  | .table schema name label => schema.all Name.readable && name.readable && label.all Alias.bare
  | _ => false

-- IS [NOT] DISTINCT at the end of a select list.
def endsIs (word : List Char) : Bool := "is".toList.isSuffixOf (lower word)

def comparesDistinct (tokens : List Token) : Bool := match tokens.reverse with
  | .word _ last::.word _ before::rest => lower last = "distinct".toList && (endsIs before || (lower before = "not".toList && match rest with
    | .word _ first::_ => endsIs first
    | _ => false))
  | _ => false

-- A relation that is no CTE in scope; reached: the scan comes to it from a FROM or JOIN through bare entries only.
structure Found where
  schema : Option Name
  name : Name
  reached : Bool

local instance lawful : LawfulBEq (List Char) := inferInstance

mutual
def Query.tables (scope : List (List Char)) : Query → List Found
  | .select recursive ctes targets items clauses =>
    ctes.tables recursive (if recursive then ctes.names ++ scope else scope) ++ targets.tables (ctes.names ++ scope) ++
      items.tables (ctes.names ++ scope) (!comparesDistinct targets.tokens) ++ clauses.tables (ctes.names ++ scope)
def Ctes.tables (recursive : Bool) (scope : List (List Char)) : Ctes → List Found
  | .none => []
  | .cte name _ _ query rest => query.tables scope ++ rest.tables recursive (if recursive then scope else name.folded::scope)
def Expression.tables (scope : List (List Char)) : Expression → List Found
  | .done => []
  | .leaf _ rest => rest.tables scope
  | .parens inner rest => inner.tables scope ++ rest.tables scope
  | .subquery query rest => query.tables scope ++ rest.tables scope
def Items.tables (scope : List (List Char)) (reached : Bool) : Items → List Found
  | .none => []
  | .item item rest => item.tables scope reached ++ rest.tables scope (reached && item.bare)
def Item.tables (scope : List (List Char)) (reached : Bool) : Item → List Found
  | .table schema name _ => if schema.isNone && name.folded ∈ scope then [] else [⟨schema,name,reached⟩]
  | .subquery _ query _ => query.tables scope
  | .call _ _ args _ => args.tables scope
  | .join left _ right on => left.tables scope reached ++ right.tables scope true ++ on.tables scope
  | .parens item _ => item.tables scope false
def Clauses.tables (scope : List (List Char)) : Clauses → List Found
  | .none => []
  | .clause _ body rest => body.tables scope ++ rest.tables scope
end

-- Tokens that would run together stand apart.
def Token.apart : Token → Bool
  | .word apart _ | .quoted apart _ => apart
  | .mark _ => false

def Parted : Option Token → Token → Prop
  | some (.word ..),.word .. => True
  | some (.quoted ..),.quoted .. => True
  | _,token => token.apart = true

-- Words are written in either case.
def Spells : Token → List Char → Prop
  | .word _ word,chars => lower chars = lower word
  | .quoted _ name,chars => chars = '\x22'::name ++ ['\x22']
  | .mark char,chars => chars = [char]

inductive Text : Option Token → List Token → List Char → Prop where
  | done : Text before [] []
  | next (blank : ∀ char ∈ gap, space char = true) (parted : Parted before token → gap ≠ []) (spelled : Spells token chars)
      (rest : Text (some token) tokens text) : Text before (token::tokens) (gap ++ chars ++ text)

def Found.permitted (policy : Policy) (found : Found) : Prop :=
  (∀ schema, found.schema = some schema → schema.folded = "public".toList) ∧ policy.reachable found.name.folded = true

def Token.lexical : Token → Bool
  | .word _ chars => chars ≠ [] && chars.all identChar
  | .quoted .. => true
  | .mark char => !identChar char && !space char && char ≠ '\x22'

-- A token the scan does not take apart.
def Token.readable : Token → Bool
  | .word _ chars => chars.all fun char => !white char
  | .quoted _ chars => '(' ∉ chars && ')' ∉ chars
  | .mark _ => true

def endsKeywordArgFn (word : List Char) : Bool := KEYWORD_ARG_FN.any fun name => name.toList.isSuffixOf (lower word)

-- No function of KEYWORD_ARG_FN takes a bare SELECT.
def takesNoQuery : List Token → Bool
  | .word _ word::rest => (match rest with
    | .mark '('::.word _ next::_ => lower next ∉ ["select".toList,"with".toList] || !endsKeywordArgFn word
    | _ => true) && takesNoQuery rest
  | _::rest => takesNoQuery rest
  | [] => true

end Zveltio.SqlStatements

import Zveltio.SqlStrip
import Mathlib.Data.List.Dedup
namespace Zveltio.SqlTables

local instance lawful : LawfulBEq (List Char) := inferInstance

-- \s of a JavaScript regular expression.
def white (char : Char) : Bool :=
  char ∈ ['\t','\n','\x0b','\x0c','\x0d',' ','\u00a0','\u1680','\u2028','\u2029','\u202f','\u205f','\u3000','\ufeff'] ||
    (8192 ≤ char.toNat && char.toNat ≤ 8202)

-- \w, and what may follow the first character of an unquoted name.
def wordChar (char : Char) : Bool := char.isAlphanum || char = '_'

def nameChar (char : Char) : Bool := wordChar char || char = '$'

def nameStart (char : Char) : Bool := char.isAlpha || char = '_'

def lower (text : List Char) : List Char := text.map Char.toLower

def skip (text : List Char) : List Char := text.dropWhile white

-- \s+, then what follows it.
def spaces (text : List Char) : Option (List Char) := if text.head?.any white then some (skip text) else none

-- The word a position starts with, up to \b.
def wordAt (text : List Char) : String := String.ofList (lower (text.takeWhile wordChar))

def literal (word : String) (text : List Char) : Option (List Char) :=
  if word.toList.isPrefixOf (lower text) then some (text.drop word.length) else none

-- The same, read backwards from a position.
def literalBack (word : String) (before : List Char) : Option (List Char) :=
  if word.toList.reverse.isPrefixOf (lower before) then some (before.drop word.length) else none

-- \b before a word character.
def boundary (before : List Char) : Bool := !before.head?.any wordChar

-- IDENT_SRC, quotes kept.
def ident : List Char → Option (List Char × List Char)
  | [] => none
  | char::rest =>
    if char = '\x22' then
      let body := rest.takeWhile (· ≠ '\x22')
      match rest.dropWhile (· ≠ '\x22') with
      | _::after => if body = [] then none else some (char::body ++ ['\x22'],after)
      | [] => none
    else if nameStart char then some (char::rest.takeWhile nameChar,rest.dropWhile nameChar)
    else none

def unquote (name : List Char) : List Char :=
  let opened := if name.head? = some '\x22' then name.tail else name
  lower (if opened.getLast? = some '\x22' then opened.dropLast else opened)

-- ENTRY: table, or schema and table.
def entry (text : List Char) : Option (List Char × Option (List Char) × List Char) := do
  let (first,after) ← ident (skip text)
  match skip after with
  | '.'::rest => match ident (skip rest) with
    | some (second,last) => return (first,some second,last)
    | none => return (first,none,after)
  | _ => return (first,none,after)

-- /^\s+(?:as\s+)?IDENT/ : what follows the alias.
def aliasAfter (text : List Char) : Option (List Char) := do
  let body ← spaces text
  match (literal "as" body).bind fun rest => (spaces rest).bind ident with
  | some (_,after) => return after
  | none => (ident body).map Prod.snd

def STOP : List String := ["where","group","order","having","limit","offset","on","using","union","intersect","except","returning",
  "set","values","window","for","left","right","inner","outer","full","cross","natural","join","select","as","lateral"]

def stop (text : List Char) : Bool := wordAt (skip text) ∈ STOP

structure TableRef where
  schema : Option (List Char)
  table : List Char
  deriving DecidableEq

-- The comma-separated list behind a keyword.
def entries (keyword : String) : Nat → List Char → List TableRef
  | 0,_ => []
  | fuel + 1,text =>
    if stop text then [] else match entry text with
    | none => []
    | some (first,second,after) =>
      if keyword ∉ ["into","update"] ∧ (skip after).head? = some '(' then [] else
      let ref : TableRef := match second with
        | some second => ⟨some (unquote first),unquote second⟩
        | none => ⟨none,unquote first⟩
      let rest := if stop after then after else (aliasAfter after).getD after
      match skip rest with
      | ','::rest => ref::entries keyword fuel rest
      | _ => [ref]

def KEYWORD_ARG_FN : List String := ["extract","substring","trim","position","overlay"]

def opening : Nat → List Char → Option (List Char)
  | _,[] => none
  | depth,')'::rest => opening (depth + 1) rest
  | 0,'('::rest => some rest
  | depth + 1,'('::rest => opening depth rest
  | depth,_::rest => opening depth rest

-- zv_<ext>_, with what is no ASCII letter or digit folded to _.
def ownedPrefixFor (extName : List Char) : List Char :=
  "zv_".toList ++ extName.map (fun char => if char.isAlphanum then char else '_') ++ ['_']

def longerOwnedPrefixes (knownExtensions : List (List Char)) (extName : List Char) : List (List Char) :=
  let mine := lower (ownedPrefixFor extName)
  (knownExtensions.map fun name => lower (ownedPrefixFor name)).filter fun other => mine.length < other.length ∧ mine.isPrefixOf other

def ownsByPrefix (knownExtensions : List (List Char)) (extName table : List Char) : Bool :=
  (lower (ownedPrefixFor extName)).isPrefixOf (lower table) &&
    !(longerOwnedPrefixes knownExtensions extName).any fun other => other.isPrefixOf (lower table)

-- What the policy reads besides the statement: the extension, every known one, the engine's tables and the granted ones.
structure Policy where
  extName : List Char
  knownExtensions : List (List Char)
  engineTables : List (List Char)
  allowedTables : List (List Char)

def Policy.reachable (policy : Policy) (table : List Char) : Bool :=
  ("zvd_".toList.isPrefixOf table && table ∉ policy.engineTables) ||
    (ownsByPrefix policy.knownExtensions policy.extName table && table ∉ policy.engineTables) ||
    table ∈ policy.allowedTables.map lower

-- One alternative of SANDBOX_ESCAPES: literal parts, with \w* (none) or \w+ (some) between them.
inductive Part where
  | text (word : String)
  | words
  | moreWords

def Part.matches : List Part → List Char → Bool
  | [],chars => chars.isEmpty
  | .text word::rest,chars => (literal word chars).any (Part.matches rest)
  | .words::rest,chars => (List.range (chars.length + 1)).any fun count => (chars.take count).all wordChar && Part.matches rest (chars.drop count)
  | .moreWords::rest,chars => (List.range (chars.length + 1)).any fun count => 0 < count && (chars.take count).all wordChar &&
      Part.matches rest (chars.drop count)

def SANDBOX_ESCAPES : List (List Part) :=
  (["set_config","pg_read_file","pg_read_binary_file","pg_stat_file","loread","lowrite","pg_terminate_backend","pg_cancel_backend",
    "pg_signal_backend","pg_reload_conf","pg_promote","pg_switch_wal","pg_start_backup","pg_stop_backup","pg_backup_start","pg_backup_stop",
    "pg_create_restore_point","pg_log_backend_memory_contexts","pg_notify","ts_stat","ts_rewrite","setval"].map fun word => [.text word]) ++
  (["pg_ls_","pg_file_","lo_","pg_logical_"].map fun word => [.text word,.moreWords]) ++
  (["dblink","pg_rotate_logfile","pg_stat_reset","pg_advisory_lock","pg_advisory_unlock","pg_try_advisory_lock","pg_try_advisory_unlock",
    "query_to_xml","cursor_to_xml","table_to_xml","schema_to_xml","database_to_xml","crosstab"].map fun word => [.text word,.words]) ++
  [[.text "pg_",.words,.text "replication",.words]] ++
  (["pg_create_","pg_copy_","pg_drop_"].map fun word => [.text word,.words,.text "slot"])

-- CALLEE: the name before a parenthesis, quoted or not.
def callee (before : List Char) : Option (List Char) :=
  let ended := skip (before.take 80)
  match ended with
  | '"'::rest =>
    let name := (rest.takeWhile nameChar).reverse
    if (rest.dropWhile nameChar).head? = some '"' ∧ name.head?.any nameStart then some name else none
  | _ =>
    let name := (ended.takeWhile nameChar).reverse.dropWhile fun char => !nameStart char
    if name = [] then none else some name

def STATEMENT_KINDS : List String := ["select","insert","update","delete","merge","with","values","table"]

def statementKind (code : List Char) : Bool :=
  let body := code.dropWhile fun char => white char || char = '('
  wordAt body ∈ STATEMENT_KINDS || (wordAt body = "set" && (spaces (body.drop 3)).any fun rest => wordAt rest = "transaction")

def severalStatements (code : List Char) : Bool :=
  ';' ∈ (code.reverse.dropWhile fun char => white char || char = ';')

-- An INTO that is code and follows neither INSERT nor MERGE.
def createsTable (before text : List Char) : Bool :=
  let near := before.take 12
  let after (word : String) := ((spaces near).bind (literalBack word)).any boundary
  (literal "into" text).any (fun rest => !rest.head?.any fun char => nameChar char || char = '"') &&
    !before.head?.any (fun char => nameChar char || char = '"' || char = '.') && !(after "insert" || after "merge")

def sandboxEscape (before text : List Char) : Option (List Char) :=
  if text.head? = some '(' ∧ (skip before).head?.any (fun char => nameChar char || char = '"') then
    (callee before).filter fun name => SANDBOX_ESCAPES.any fun parts => Part.matches parts name
  else none

inductive Refusal where
  | severalStatements
  | statementKind
  | createsTable
  | unicodeIdentifier
  | sandboxEscape (name : List Char)
  | tables (offenders : List (List Char))

end Zveltio.SqlTables

import Zveltio.SchemaJson
import Zveltio.PolicyFastPath
import Zveltio.Listing
namespace Zveltio.CollectionGrants
open SchemaJson PolicyFastPath IpText Listing Tables

def lowercase (char : Char) : Bool := 'a' ≤ char && char ≤ 'z'

-- SAFE_NAME_RE
def identifier : Text → Bool
  | first::rest => lowercase first && rest.all fun char => lowercase char || ('0' ≤ char && char ≤ '9') || char = '_'
  | [] => false

structure Collection where
  name : String
  safe : identifier name.toList = true

def Collection.text (coll : Collection) : Text := coll.name.toList

inductive Action where
  | read
  | create
  | update
  | delete
  deriving DecidableEq

def Action.text : Action → Text
  | .read => ['r','e','a','d']
  | .create => ['c','r','e','a','t','e']
  | .update => ['u','p','d','a','t','e']
  | .delete => ['d','e','l','e','t','e']

def Action.name (action : Action) : String := String.ofList action.text

def star : Text := ['*']

def write : Text := ['w','r','i','t','e']

def entry (coll action : Text) : Text := coll ++ ':'::action

structure Grants where
  all : Bool
  grants : Text

def isApiKeySubject (subject : String) : Bool := ['a','p','i','k','e','y',':'].isPrefixOf subject.toList

-- A user: what their roles resolve to in the request's domain, and the policy rows there are.
structure Person where
  userId : String
  user : isApiKeySubject userId = false
  god : Bool
  domain : String
  roles : List String
  rules : List (List String)

def Person.permissions (person : Person) : EffectivePermissions :=
  person.rules.foldl (addRule (person.userId::person.roles) person.domain) ⟨false,[],[]⟩

def checkPermission (person : Person) (resource action : String) : Bool :=
  if isApiKeySubject person.userId then false else person.god || allowedBy person.permissions resource action

-- k.replace('\u0000', ':')
def spelled (text : Text) : Text := match text.dropWhile (· ≠ '\x00') with
  | [] => text
  | _::rest => text.takeWhile (· ≠ '\x00') ++ ':'::rest

def collectionGrantsFor (person : Person) : Grants :=
  if person.god then ⟨true,[]⟩
  else
    let parts := person.permissions.anyAction.map (fun object => entry object.toList star) ++ person.permissions.exact.map (fun held => spelled held.toList)
    ⟨person.permissions.all,listing ',' (parts.filter fun part => ',' ∉ part)⟩

-- JSON.parse: none where it throws, as it does on an empty text.
structure Reader where
  parse : Text → Option Json
  empty : parse [] = none

-- typeof value === 'string'
def string : Option Json → Option Text
  | some (.str text) => some text.toList
  | _ => none

-- The entries of a key's scopes; none where they are no array.
def entries (reader : Reader) (raw : Json) : Option (List Json) :=
  let scopes := match raw with
    | .str text => reader.parse text.toList
    | _ => some raw
  match scopes with
  | some (.arr items) => some items
  | _ => none

-- The strings among an entry's actions, none where they are no array.
def strings : Option Json → List Text
  | some (.arr items) => items.filterMap fun item => string (some item)
  | _ => []

def actionParts (coll action : Text) : List Text :=
  if ',' ∈ action ∨ ':' ∈ action then []
  else if action = star then if coll = star then [] else [entry coll star]
  else if action = write then [entry coll Action.create.text,entry coll Action.update.text]
  else [entry coll action]

local instance lawfulText : LawfulBEq Text := inferInstance

def addScope (grants : Bool × List Text) (scope : Json) : Bool × List Text :=
  match string (scope.get "collection") with
  | none => grants
  | some coll =>
    if coll = [] ∨ ',' ∈ coll ∨ ':' ∈ coll then grants
    else
      let actions := strings (scope.get "actions")
      (grants.1 || decide (coll = star ∧ star ∈ actions),grants.2 ++ actions.flatMap (actionParts coll))

def encodeApiKeyScopes (reader : Reader) (raw : Json) : Grants :=
  match entries reader raw with
  | none => ⟨false,[]⟩
  | some scopes =>
    let encoded := scopes.foldl addScope (false,[])
    ⟨encoded.1,listing ',' encoded.2.eraseDups⟩

-- entries of intersectGrants: a resource named with a colon is never a collection.
def pairs (grants : Grants) : List (Text × Text) :=
  ((if grants.all then [entry star star] else []) ++ (grants.grants.splitOn ',').filter (· ≠ [])).filterMap fun part =>
    (lastCut ':' part).filter fun cut => cut.1 ≠ [] ∧ ':' ∉ cut.1

def meet (first second : Text) : Option Text :=
  if first = star then some second else if second = star ∨ second = first then some first else none

def meets (first second : List (Text × Text)) : List (Text × Text) :=
  first.flatMap fun one => second.filterMap fun other => (meet one.1 other.1).bind fun coll => (meet one.2 other.2).map fun action => (coll,action)

def intersectGrants (first second : Grants) : Grants :=
  let met := meets (pairs first) (pairs second)
  ⟨met.any fun pair => pair.1 = star ∧ pair.2 = star,
    listing ',' ((met.filter fun pair => ¬(pair.1 = star ∧ pair.2 = star)).map fun pair => entry pair.1 pair.2).eraseDups⟩

-- The settings zveltio_collection_allows reads, the role it runs as and whether that role is exempt.
structure Settings where
  actor : Text
  rls_bypass : Text
  system_collections : Text
  collection_all : Text
  collection_grants : Text
  ext_statement : Text
  current_user : Text
  exempt : Bool

def extensionRole (role : Text) : Bool :=
  let behind := ['z','v','e','l','t','i','o','_']
  behind.isPrefixOf role && ([['e','x','t'],['e','x','t','b'],['w','r','k']].any fun mark =>
    decide (role.drop 8 = mark) || (mark ++ ['_']).isPrefixOf (role.drop 8)) ||
    decide (role = behind ++ ['w','o','r','k','e','r'])

def on : Text := ['o','n']

def zveltio_collection_allows (settings : Settings) (coll act : Text) : Bool :=
  if act = Action.read.text ∧ settings.rls_bypass.map Char.toLower ∈ [on,['t','r','u','e'],['1']] then true
  else if settings.system_collections ≠ [] ∧ (lists ',' settings.system_collections coll = true ∨ lists ',' settings.system_collections star = true) then true
  else if settings.actor = on ∧ settings.collection_all = on then true
  else if settings.actor = on ∧ (lists ',' settings.collection_grants (entry coll act) = true ∨
      lists ',' settings.collection_grants (entry coll star) = true ∨ lists ',' settings.collection_grants (entry star act) = true) then true
  else if settings.ext_statement = on then false
  else if extensionRole settings.current_user then settings.exempt
  else !decide (settings.actor = on)

structure EngineRole where
  name : Text
  exempt : Bool
  own : extensionRole name = false

def published (role : EngineRole) (grants : Grants) : Settings :=
  ⟨on,['o','f','f'],[],if grants.all then on else ['o','f','f'],grants.grants,[],role.name,role.exempt⟩

-- Array.prototype.includes and String.prototype.includes; reading off anything else throws.
def includes (item : Text) : Option Json → Option Bool
  | some (.arr items) => some (items.any fun held => string (some held) = some item)
  | some (.str text) => some (decide (item <:+: text.toList))
  | _ => none

def grantsAction (actions : Option Json) (action : Action) : Option Bool :=
  (includes action.text actions).bind fun named => (includes star actions).bind fun whole => (includes write actions).map fun writes =>
    named || whole || ((action = .create || action = .update) && writes)

-- matches.some(...), which stops at the first that grants.
def someGrants (action : Action) : List Json → Option Bool
  | [] => some false
  | scope::rest => (grantsAction (scope.get "actions") action).bind fun granted => if granted then some true else someGrants action rest

def named (coll : Text) (scope : Json) : Bool := string (scope.get "collection") = some coll || string (scope.get "collection") = some star

-- The filter reads each entry's collection and throws at null.
def scopesAllow (coll : Text) (action : Action) (scopes : List Json) : Option Bool :=
  if scopes.any Json.isNull then none else someGrants action (scopes.filter (named coll))

def falsy : Json → Bool
  | .null => true
  | .bool value => !value
  | .num number => number.text = "0"
  | .str text => text = ""
  | _ => false

-- Whom a key acts for: a job of the engine, nobody, a user.
inductive Issuer where
  | job
  | missing
  | user (person : Person)

def keyIssuerAllows (issuer : Issuer) (resource action : String) : Bool := match issuer with
  | .job => true
  | .missing => false
  | .user person => checkPermission person resource action

inductive Caller where
  | session (person : Person)
  | key (scopes : Json) (issuer : Issuer)

-- None where it throws.
def checkAccess (reader : Reader) (caller : Caller) (coll : Collection) (action : Action) : Option Bool := match caller with
  | .session person => some (checkPermission person coll.name action.name)
  | .key raw issuer =>
    if falsy raw then some false
    else match entries reader raw with
      | none => some false
      | some [] => some false
      | some scopes => (scopesAllow coll.text action scopes).map fun allowed => allowed && keyIssuerAllows issuer coll.name action.name

def Caller.grants (reader : Reader) : Caller → Grants
  | .session person => collectionGrantsFor person
  | .key raw .job => encodeApiKeyScopes reader raw
  | .key raw .missing => intersectGrants (encodeApiKeyScopes reader raw) ⟨false,[]⟩
  | .key raw (.user person) => intersectGrants (encodeApiKeyScopes reader raw) (collectionGrantsFor person)

-- What a caller's key says of an entry: an array that holds the action, a text that contains it, or nothing that can be asked.
def Holds (action : Action) (item : Text) : Prop := item = action.text ∨ item = star ∨ (action = .create ∨ action = .update) ∧ item = write

structure Granting (coll : Text) (action : Action) (scope : Json) : Prop where
  here : named coll scope = true
  holds : ∃ item ∈ strings (scope.get "actions"), Holds action item

structure Wording (coll : Text) (action : Action) (scope : Json) : Prop where
  here : named coll scope = true
  holds : ∃ text item, scope.get "actions" = some (.str text) ∧ Holds action item ∧ item <:+: text.toList

structure Broken (coll : Text) (scope : Json) : Prop where
  here : named coll scope = true
  unread : includes [] (scope.get "actions") = none

theorem includes_none {actions : Option Json} (item other : Text) : includes item actions = none ↔ includes other actions = none := by
  unfold includes
  split <;> simp

theorem includes_array {actions : Option Json} (read : includes item actions = some true) :
    item ∈ strings actions ∨ ∃ text, actions = some (.str text) ∧ item <:+: text.toList := by
  unfold includes at read
  split at read
  · next items =>
    obtain ⟨held,member,same⟩ := List.any_eq_true.mp (Option.some.inj read)
    exact .inl (List.mem_filterMap.mpr ⟨held,member,of_decide_eq_true same⟩)
  · next text => exact .inr ⟨text,rfl,of_decide_eq_true (Option.some.inj read)⟩
  · cases read

theorem includes_held {actions : Option Json} (member : item ∈ strings actions) : includes item actions = some true := by
  unfold strings at member
  split at member
  · next items =>
    obtain ⟨held,there,same⟩ := List.mem_filterMap.mp member
    exact congrArg some (List.any_eq_true.mpr ⟨held,there,decide_eq_true same⟩)
  · cases member

theorem grantsAction_exact (actions : Option Json) (action : Action) :
    grantsAction actions action = some true ↔ ∃ item, Holds action item ∧ includes item actions = some true := by
  unfold grantsAction
  cases first : includes action.text actions with
  | none =>
    have none_left (item : Text) : includes item actions = none := (includes_none action.text item).mp first
    simp [none_left]
  | some one =>
    have some_left (item : Text) : ∃ answer, includes item actions = some answer := by
      cases held : includes item actions with
      | none => rw [(includes_none item action.text).mp held] at first; cases first
      | some answer => exact ⟨answer,rfl⟩
    obtain ⟨two,second⟩ := some_left star
    obtain ⟨three,third⟩ := some_left write
    rw [second,third]
    simp only [Option.bind_some,Option.map_some,Option.some.injEq]
    constructor
    · intro granted
      rw [Bool.or_eq_true,Bool.or_eq_true,Bool.and_eq_true] at granted
      rcases granted with (granted | granted) | granted
      · exact ⟨_,.inl rfl,by rw [first,granted]⟩
      · exact ⟨_,.inr (.inl rfl),by rw [second,granted]⟩
      · exact ⟨_,.inr (.inr ⟨by simpa using granted.1,rfl⟩),by rw [third,granted.2]⟩
    · rintro ⟨item,same | same | ⟨kind,same⟩,read⟩
      · rw [same,first] at read
        simp [Option.some.inj read]
      · rw [same,second] at read
        simp [Option.some.inj read]
      · rw [same,third] at read
        rcases kind with kind | kind <;> simp [Option.some.inj read,kind]

theorem grantsAction_none (actions : Option Json) (action : Action) : grantsAction actions action = none ↔ includes [] actions = none := by
  rw [includes_none [] action.text]
  unfold grantsAction
  cases first : includes action.text actions with
  | none => simp
  | some one =>
    have some_left (item : Text) : includes item actions ≠ none := by
      intro wrong
      rw [(includes_none item action.text).mp wrong] at first
      cases first
    obtain ⟨two,second⟩ := Option.ne_none_iff_exists'.mp (some_left star)
    obtain ⟨three,third⟩ := Option.ne_none_iff_exists'.mp (some_left write)
    simp [second,third]

-- A walk that ends at the first yes and breaks at a bad one before it.
def Ends (yes bad : α → Prop) (list : List α) : Prop := ∃ before held after, list = before ++ held::after ∧ yes held ∧ ∀ earlier ∈ before, ¬bad earlier

theorem ends_cons {yes bad : α → Prop} {head : α} {rest : List α} : Ends yes bad (head::rest) ↔ yes head ∨ ¬bad head ∧ Ends yes bad rest := by
  constructor
  · rintro ⟨before,held,after,split,fits,clean⟩
    cases before with
    | nil =>
      cases (List.cons.inj split).1
      exact .inl fits
    | cons first more =>
      cases (List.cons.inj split).1
      exact .inr ⟨clean head (List.mem_cons_self ..),more,held,after,(List.cons.inj split).2,fits,fun earlier member => clean earlier (List.mem_cons_of_mem _ member)⟩
  · rintro (fits | ⟨apart,before,held,after,split,fits,clean⟩)
    · exact ⟨[],head,rest,rfl,fits,fun _ member => absurd member List.not_mem_nil⟩
    · refine ⟨head::before,held,after,by rw [split]; rfl,fits,fun earlier member => ?_⟩
      rcases List.mem_cons.mp member with same | member
      · exact same ▸ apart
      · exact clean earlier member

theorem ends_first {yes bad : α → Prop} {list : List α} (member : held ∈ list) (fits : yes held)
    (late : ∀ before other after, list = before ++ other::after → bad other → ∃ earlier ∈ before, yes earlier) : Ends yes bad list := by
  induction list generalizing held with
  | nil => cases member
  | cons head rest ih =>
    rw [ends_cons]
    by_cases now : yes head
    · exact .inl now
    · refine .inr ⟨fun wrong => ?_,?_⟩
      · obtain ⟨_,inside,_⟩ := late [] head rest rfl wrong
        cases inside
      · rcases List.mem_cons.mp member with same | member
        · exact absurd (same ▸ fits) now
        · refine ih member fits fun before other after split wrong => ?_
          obtain ⟨earlier,inside,found⟩ := late (head::before) other after (by rw [split]; rfl) wrong
          rcases List.mem_cons.mp inside with same | inside
          · exact absurd (same ▸ found) now
          · exact ⟨earlier,inside,found⟩

theorem ends_late {yes bad : α → Prop} (apart : ∀ held, yes held → ¬bad held) (ends : Ends yes bad list) (split : list = before ++ other::after)
    (wrong : bad other) : ∃ earlier ∈ before, yes earlier := by
  induction before generalizing list with
  | nil =>
    rw [split,List.nil_append,ends_cons] at ends
    rcases ends with fits | ⟨clean,_⟩
    · exact absurd wrong (apart other fits)
    · exact absurd wrong clean
  | cons head rest ih =>
    rw [split,List.cons_append,ends_cons] at ends
    rcases ends with fits | ⟨_,later⟩
    · exact ⟨head,List.mem_cons_self ..,fits⟩
    · obtain ⟨earlier,member,fits⟩ := ih later rfl
      exact ⟨earlier,List.mem_cons_of_mem _ member,fits⟩

theorem granted_exact {coll : Text} {scope : Json} (here : named coll scope = true) (action : Action) :
    grantsAction (scope.get "actions") action = some true ↔ Granting coll action scope ∨ Wording coll action scope := by
  rw [grantsAction_exact]
  constructor
  · rintro ⟨item,holds,read⟩
    rcases includes_array read with member | ⟨text,same,inside⟩
    · exact .inl ⟨here,item,member,holds⟩
    · exact .inr ⟨here,text,item,same,holds,inside⟩
  · rintro (⟨_,item,member,holds⟩ | ⟨_,text,item,same,holds,inside⟩)
    · exact ⟨item,holds,includes_held member⟩
    · refine ⟨item,holds,?_⟩
      rw [same]
      exact congrArg some (decide_eq_true inside)

theorem granted_apart {scope : Json} (granted : Granting coll action scope ∨ Wording coll action scope) : ¬Broken coll scope := by
  intro broken
  have here := broken.here
  rw [← granted_exact here action] at granted
  rw [(grantsAction_none _ action).mpr broken.unread] at granted
  cases granted

theorem someGrants_exact (coll : Text) (action : Action) (scopes : List Json) : someGrants action (scopes.filter (named coll)) = some true ↔
    Ends (fun scope => Granting coll action scope ∨ Wording coll action scope) (Broken coll) scopes := by
  induction scopes with
  | nil =>
    refine iff_of_false (fun wrong => (by cases wrong)) ?_
    rintro ⟨before,held,after,split,_⟩
    exact List.append_ne_nil_of_right_ne_nil _ (List.cons_ne_nil _ _) split.symm
  | cons head rest ih =>
    rw [ends_cons]
    by_cases here : named coll head = true
    · rw [List.filter_cons_of_pos here,← granted_exact here action]
      unfold someGrants
      cases read : grantsAction (head.get "actions") action with
      | none =>
        have broken : Broken coll head := ⟨here,(grantsAction_none _ action).mp read⟩
        simp [broken]
      | some granted =>
        have whole : ¬Broken coll head := by
          intro broken
          rw [(grantsAction_none _ action).mpr broken.unread] at read
          cases read
        cases granted with
        | true => simp
        | false => simp [ih,whole]
    · have silent : ¬(Granting coll action head ∨ Wording coll action head) := by
        rintro (granting | wording)
        · exact here granting.here
        · exact here wording.here
      have whole : ¬Broken coll head := fun broken => here broken.here
      rw [List.filter_cons_of_neg here,ih]
      simp [silent,whole]

-- The scopes on which both sides come alike: where an array grants, no null entry and no entry that cannot be asked before the
-- first that is granted; where none does, no text that contains the action is reached.
structure Fitting (coll : Text) (action : Action) (scopes : List Json) : Prop where
  kept : (∃ scope ∈ scopes, Granting coll action scope) → .null ∉ scopes ∧ ∀ before scope after, scopes = before ++ scope::after → Broken coll scope →
    ∃ earlier ∈ before, Granting coll action earlier ∨ Wording coll action earlier
  bound : .null ∉ scopes → ∀ before scope after, scopes = before ++ scope::after → Wording coll action scope →
    (∃ earlier ∈ before, Broken coll earlier) ∨ ∃ scope ∈ scopes, Granting coll action scope

theorem isNull_exact (value : Json) : value.isNull = true ↔ value = .null := by
  cases value <;> simp [Json.isNull]

theorem scopesAllow_exact (coll : Text) (action : Action) (scopes : List Json) : scopesAllow coll action scopes = some true ↔
    .null ∉ scopes ∧ Ends (fun scope => Granting coll action scope ∨ Wording coll action scope) (Broken coll) scopes := by
  have nulls : scopes.any Json.isNull = true ↔ .null ∈ scopes := by
    rw [List.any_eq_true]
    constructor
    · rintro ⟨value,member,same⟩
      exact (isNull_exact value).mp same ▸ member
    · intro member
      exact ⟨_,member,rfl⟩
  unfold scopesAllow
  split
  · next some_null => simp [nulls.mp some_null]
  · next none_left =>
    rw [someGrants_exact]
    simp [mt nulls.mpr none_left]

theorem fitting_exact (coll : Text) (action : Action) (scopes : List Json) :
    ((∃ scope ∈ scopes, Granting coll action scope) ↔ scopesAllow coll action scopes = some true) ↔ Fitting coll action scopes := by
  rw [scopesAllow_exact]
  constructor
  · intro alike
    refine ⟨fun granted => ?_,fun clean before scope after split wording => ?_⟩
    · obtain ⟨clean,ends⟩ := alike.mp granted
      exact ⟨clean,fun before scope after split broken => ends_late (fun _ => granted_apart) ends split broken⟩
    · by_cases broken : ∃ earlier ∈ before, Broken coll earlier
      · exact .inl broken
      · refine .inr (alike.mpr ⟨clean,before,scope,after,split,.inr wording,fun earlier member wrong => broken ⟨earlier,member,wrong⟩⟩)
  · intro fitting
    constructor
    · rintro ⟨scope,member,granting⟩
      obtain ⟨clean,late⟩ := fitting.kept ⟨scope,member,granting⟩
      exact ⟨clean,ends_first member (.inl granting) late⟩
    · rintro ⟨clean,before,scope,after,split,granted,apart⟩
      rcases granted with granting | wording
      · exact ⟨scope,by rw [split]; simp,granting⟩
      · rcases fitting.bound clean before scope after split wording with ⟨earlier,member,broken⟩ | granted
        · exact absurd broken (apart earlier member)
        · exact granted

section
variable {coll : Collection} {action : Action}

theorem collection_chars (member : char ∈ coll.text) : lowercase char = true ∨ ('0' ≤ char ∧ char ≤ '9') ∨ char = '_' := by
  have safe := coll.safe
  unfold Collection.text at member
  unfold identifier at safe
  split at safe
  · next first rest shape =>
    rw [shape] at member
    rw [Bool.and_eq_true] at safe
    rcases List.mem_cons.mp member with same | member
    · exact .inl (same ▸ safe.1)
    · have kept := List.all_eq_true.mp safe.2 char member
      simp only [Bool.or_eq_true,Bool.and_eq_true,decide_eq_true_eq] at kept
      tauto
  · cases safe

theorem collection_apart (strange : (lowercase char || (decide ('0' ≤ char) && decide (char ≤ '9')) || decide (char = '_')) = false) : char ∉ coll.text := by
  intro member
  have known := collection_chars member
  simp only [Bool.or_eq_false_iff,Bool.and_eq_false_iff,decide_eq_false_iff_not] at strange
  rcases known with lower | digit | under
  · rw [strange.1.1] at lower
    cases lower
  · rcases strange.1.2 with wrong | wrong
    · exact wrong digit.1
    · exact wrong digit.2
  · exact strange.2 under

theorem collection_some : coll.text ≠ [] := by
  intro empty
  have safe := coll.safe
  unfold Collection.text at empty
  rw [empty] at safe
  cases safe

theorem collection_star : coll.text ≠ star := by
  intro same
  have member : '*' ∈ coll.text := by
    rw [same]
    exact List.mem_cons_self ..
  exact collection_apart (by decide) member

theorem action_apart (char : Char) (strange : char = ',' ∨ char = ':' ∨ char = '\x00') : char ∉ action.text := by
  rcases strange with same | same | same <;> subst same <;> cases action <;> decide

theorem action_star : action.text ≠ star := by
  cases action <;> decide

theorem action_write : action.text ≠ write := by
  cases action <;> decide

end

theorem entry_inj {coll action other next : Text} (same : entry coll action = entry other next) (first : ':' ∉ action) (second : ':' ∉ next) :
    coll = other ∧ action = next := by
  have cut : lastCut ':' (entry coll action) = some (coll,action) := lastCut_exact.mpr ⟨rfl,first⟩
  rw [same,(lastCut_exact.mpr ⟨rfl,second⟩ : lastCut ':' (entry other next) = some (other,next))] at cut
  have pair := Option.some.inj cut
  exact ⟨(congrArg Prod.fst pair).symm,(congrArg Prod.snd pair).symm⟩

-- Grants as the engine publishes them: their parts hold no comma, and not the total entry.
structure Encoded (grants : Grants) (parts : List Text) : Prop where
  text : grants.grants = listing ',' parts
  clean : ∀ part ∈ parts, ',' ∉ part
  total : entry star star ∉ parts

def Allowed (grants : Grants) (parts : List Text) (coll action : Text) : Prop :=
  grants.all = true ∨ entry coll action ∈ parts ∨ entry coll star ∈ parts ∨ entry star action ∈ parts

theorem entry_apart {coll action : Text} (first : ',' ∉ coll) (second : ',' ∉ action) : ',' ∉ entry coll action := by
  unfold entry
  simp [first,second]

theorem allows_exact {role : EngineRole} {grants : Grants} {parts : List Text} (encoded : Encoded grants parts) (coll : Collection) (action : Action) :
    zveltio_collection_allows (published role grants) coll.text action.text = true ↔ Allowed grants parts coll.text action.text := by
  have named : ',' ∉ coll.text := collection_apart (by decide)
  have asked : ',' ∉ action.text := action_apart ',' (.inl rfl)
  have plain : ',' ∉ star := by decide
  have one := lists_exact (entry_apart named asked) encoded.clean
  have two := lists_exact (entry_apart named plain) encoded.clean
  have three := lists_exact (entry_apart plain asked) encoded.clean
  unfold zveltio_collection_allows Allowed published
  simp only [encoded.text,one,two,three]
  have off : (['o','f','f'] : Text).map Char.toLower ∉ [on,['t','r','u','e'],['1']] := by decide
  rw [if_neg fun wrong => off wrong.2,if_neg fun wrong => wrong.1 rfl]
  cases grants.all with
  | true => simp
  | false =>
    have apart : (['o','f','f'] : Text) ≠ on := by decide
    have silent : ([] : Text) ≠ on := by decide
    simp [apart,silent,role.own]

def Covers (pair : Text × Text) (coll action : Text) : Prop := (pair.1 = coll ∨ pair.1 = star) ∧ (pair.2 = action ∨ pair.2 = star)

structure Bare (pair : Text × Text) : Prop where
  first : pair.1 ≠ [] ∧ ':' ∉ pair.1
  second : ':' ∉ pair.2

theorem mem_pairs {grants : Grants} {parts : List Text} (encoded : Encoded grants parts) (pair : Text × Text) :
    pair ∈ pairs grants ↔ Bare pair ∧ (grants.all = true ∧ pair = (star,star) ∨ entry pair.1 pair.2 ∈ parts) := by
  have cut (part : Text) : (lastCut ':' part).filter (fun cut => cut.1 ≠ [] ∧ ':' ∉ cut.1) = some pair ↔ part = entry pair.1 pair.2 ∧ Bare pair := by
    rw [Option.filter_eq_some_iff,show lastCut ':' part = some (pair.1,pair.2) ↔ _ from lastCut_exact]
    constructor
    · rintro ⟨⟨same,apart⟩,kept⟩
      exact ⟨same,of_decide_eq_true kept,apart⟩
    · rintro ⟨same,bare⟩
      exact ⟨⟨same,bare.second⟩,decide_eq_true bare.first⟩
  unfold pairs
  rw [encoded.text,splitOn_listing encoded.clean,List.mem_filterMap]
  constructor
  · rintro ⟨part,member,found⟩
    obtain ⟨same,bare⟩ := (cut part).mp found
    refine ⟨bare,?_⟩
    rcases List.mem_append.mp member with member | member
    · split at member
      · next all =>
        rw [List.mem_singleton.mp member] at same
        have parts := entry_inj same (by decide) bare.second
        exact .inl ⟨all,Prod.ext parts.1.symm parts.2.symm⟩
      · cases member
    · exact .inr (same ▸ List.mem_of_mem_filter member)
  · rintro ⟨bare,⟨all,same⟩ | member⟩
    · refine ⟨entry star star,List.mem_append_left _ (by simp [all]),(cut _).mpr ⟨?_,bare⟩⟩
      rw [same]
    · refine ⟨_,List.mem_append_right _ (List.mem_filter.mpr ⟨member,?_⟩),(cut _).mpr ⟨rfl,bare⟩⟩
      simp [entry]

theorem covered_exact {grants : Grants} {parts : List Text} (encoded : Encoded grants parts) (coll : Collection) (action : Action) :
    (∃ pair ∈ pairs grants, Covers pair coll.text action.text) ↔ Allowed grants parts coll.text action.text := by
  have named : Bare (coll.text,action.text) := ⟨⟨collection_some,collection_apart (by decide)⟩,action_apart ':' (.inr (.inl rfl))⟩
  have plain : Bare (star,star) := ⟨by decide,by decide⟩
  constructor
  · rintro ⟨pair,member,first,second⟩
    obtain ⟨bare,⟨all,_⟩ | held⟩ := (mem_pairs encoded pair).mp member
    · exact .inl all
    · rcases first with first | first <;> rcases second with second | second <;> rw [first,second] at held
      · exact .inr (.inl held)
      · exact .inr (.inr (.inl held))
      · exact .inr (.inr (.inr held))
      · exact absurd held encoded.total
  · rintro (all | held | held | held)
    · exact ⟨(star,star),(mem_pairs encoded _).mpr ⟨plain,.inl ⟨all,rfl⟩⟩,.inr rfl,.inr rfl⟩
    · exact ⟨_,(mem_pairs encoded (coll.text,action.text)).mpr ⟨named,.inr held⟩,.inl rfl,.inl rfl⟩
    · exact ⟨_,(mem_pairs encoded (coll.text,star)).mpr ⟨⟨named.first,plain.second⟩,.inr held⟩,.inl rfl,.inr rfl⟩
    · exact ⟨_,(mem_pairs encoded (star,action.text)).mpr ⟨⟨plain.first,named.second⟩,.inr held⟩,.inr rfl,.inl rfl⟩

theorem meet_exact {first second held : Text} : meet first second = some held → (∀ name, held = name ∨ held = star ↔ (first = name ∨ first = star) ∧ (second = name ∨ second = star)) := by
  unfold meet
  intro met name
  split at met
  · next wild => simp [← Option.some.inj met,wild]
  · next narrow =>
    split at met
    · next other =>
      rw [← Option.some.inj met]
      rcases other with wild | same
      · simp [wild,narrow]
      · simp [same,narrow]
    · cases met

theorem meet_none {first second : Text} (name : Text) : meet first second = none → ¬((first = name ∨ first = star) ∧ (second = name ∨ second = star)) := by
  unfold meet
  intro none_left both
  split at none_left
  · cases none_left
  · next narrow =>
    split at none_left
    · cases none_left
    · next apart =>
      rcases both with ⟨one | wild,two | other⟩
      · exact apart (.inr (two.trans one.symm))
      · exact apart (.inl other)
      · exact narrow wild
      · exact narrow wild

theorem meets_exact {first second : List (Text × Text)} : (∃ pair ∈ meets first second, Covers pair coll action) ↔
    (∃ pair ∈ first, Covers pair coll action) ∧ ∃ pair ∈ second, Covers pair coll action := by
  constructor
  · rintro ⟨pair,member,covers⟩
    obtain ⟨one,left,member⟩ := List.mem_flatMap.mp member
    obtain ⟨other,right,found⟩ := List.mem_filterMap.mp member
    obtain ⟨name,met,found⟩ := Option.bind_eq_some_iff.mp found
    obtain ⟨verb,matched,same⟩ := Option.map_eq_some_iff.mp found
    rw [← same] at covers
    have names := (meet_exact met coll).mp covers.1
    have verbs := (meet_exact matched action).mp covers.2
    exact ⟨⟨one,left,names.1,verbs.1⟩,other,right,names.2,verbs.2⟩
  · rintro ⟨⟨one,left,name,verb⟩,other,right,name',verb'⟩
    obtain ⟨held,met⟩ := Option.ne_none_iff_exists'.mp fun wrong => meet_none coll wrong ⟨name,name'⟩
    obtain ⟨act,matched⟩ := Option.ne_none_iff_exists'.mp fun wrong => meet_none action wrong ⟨verb,verb'⟩
    refine ⟨(held,act),List.mem_flatMap.mpr ⟨one,left,List.mem_filterMap.mpr ⟨other,right,?_⟩⟩,(meet_exact met coll).mpr ⟨name,name'⟩,
      (meet_exact matched action).mpr ⟨verb,verb'⟩⟩
    rw [met,Option.bind_some,matched,Option.map_some]

theorem meet_member {first second : Text} (met : meet first second = some held) : held = first ∨ held = second := by
  unfold meet at met
  split at met
  · exact .inr (Option.some.inj met).symm
  · split at met
    · exact .inl (Option.some.inj met).symm
    · cases met

theorem meets_kept (keep kept : Text → Prop) {first second : List (Text × Text)} (left : ∀ pair ∈ first, keep pair.1 ∧ kept pair.2)
    (right : ∀ pair ∈ second, keep pair.1 ∧ kept pair.2) : ∀ pair ∈ meets first second, keep pair.1 ∧ kept pair.2 := by
  intro pair member
  obtain ⟨one,mine,member⟩ := List.mem_flatMap.mp member
  obtain ⟨other,theirs,found⟩ := List.mem_filterMap.mp member
  obtain ⟨name,met,found⟩ := Option.bind_eq_some_iff.mp found
  obtain ⟨verb,matched,same⟩ := Option.map_eq_some_iff.mp found
  rw [← same]
  constructor
  · rcases meet_member met with same | same <;> rw [same]
    · exact (left one mine).1
    · exact (right other theirs).1
  · rcases meet_member matched with same | same <;> rw [same]
    · exact (left one mine).2
    · exact (right other theirs).2

theorem pairs_kept {grants : Grants} {parts : List Text} (encoded : Encoded grants parts) :
    ∀ pair ∈ pairs grants, (pair.1 ≠ [] ∧ ':' ∉ pair.1 ∧ ',' ∉ pair.1) ∧ ':' ∉ pair.2 ∧ ',' ∉ pair.2 := by
  intro pair member
  obtain ⟨bare,whole | held⟩ := (mem_pairs encoded pair).mp member
  · rw [whole.2]
    decide
  · have clean := encoded.clean _ held
    unfold entry at clean
    simp only [List.mem_append,List.mem_cons,not_or] at clean
    exact ⟨⟨bare.first.1,bare.first.2,clean.1⟩,bare.second,clean.2.2⟩

def intersection (first second : Grants) : List Text :=
  (((meets (pairs first) (pairs second)).filter fun pair => ¬(pair.1 = star ∧ pair.2 = star)).map fun pair => entry pair.1 pair.2).eraseDups

section
variable {first second : Grants} {ours theirs : List Text}

theorem intersect_encoded (one : Encoded first ours) (other : Encoded second theirs) : Encoded (intersectGrants first second) (intersection first second) := by
  have kept := meets_kept (fun name => name ≠ [] ∧ ':' ∉ name ∧ ',' ∉ name) (fun verb => ':' ∉ verb ∧ ',' ∉ verb) (pairs_kept one) (pairs_kept other)
  refine ⟨rfl,fun part member => ?_,fun member => ?_⟩
  · obtain ⟨pair,held,same⟩ := List.mem_map.mp (List.mem_eraseDups.mp member)
    have sound := kept pair (List.mem_of_mem_filter held)
    exact same ▸ entry_apart sound.1.2.2 sound.2.2
  · obtain ⟨pair,held,same⟩ := List.mem_map.mp (List.mem_eraseDups.mp member)
    have sound := kept pair (List.mem_of_mem_filter held)
    have apart := (List.mem_filter.mp held).2
    obtain ⟨name,verb⟩ := entry_inj same sound.2.1 (by decide)
    simp [name,verb] at apart

theorem mem_intersect (one : Encoded first ours) (other : Encoded second theirs) (pair : Text × Text) :
    pair ∈ pairs (intersectGrants first second) ↔ pair ∈ meets (pairs first) (pairs second) := by
  have kept := meets_kept (fun name => name ≠ [] ∧ ':' ∉ name ∧ ',' ∉ name) (fun verb => ':' ∉ verb ∧ ',' ∉ verb) (pairs_kept one) (pairs_kept other)
  have all : (intersectGrants first second).all = true ↔ (star,star) ∈ meets (pairs first) (pairs second) := by
    unfold intersectGrants
    simp only [List.any_eq_true,decide_eq_true_eq]
    constructor
    · rintro ⟨held,member,name,verb⟩
      have same : held = (star,star) := Prod.ext name verb
      exact same ▸ member
    · intro member
      exact ⟨_,member,rfl,rfl⟩
  rw [mem_pairs (intersect_encoded one other),all]
  constructor
  · rintro ⟨bare,⟨member,same⟩ | member⟩
    · exact same ▸ member
    · obtain ⟨held,inside,same⟩ := List.mem_map.mp (List.mem_eraseDups.mp member)
      have there := List.mem_of_mem_filter inside
      obtain ⟨name,verb⟩ := entry_inj same (kept held there).2.1 bare.second
      have whole : held = pair := Prod.ext name verb
      exact whole ▸ there
  · intro member
    have sound := kept pair member
    refine ⟨⟨⟨sound.1.1,sound.1.2.1⟩,sound.2.1⟩,?_⟩
    by_cases total : pair = (star,star)
    · exact .inl ⟨total ▸ member,total⟩
    · refine .inr (List.mem_eraseDups.mpr (List.mem_map.mpr ⟨pair,List.mem_filter.mpr ⟨member,?_⟩,rfl⟩))
      exact decide_eq_true fun both => total (Prod.ext both.1 both.2)

theorem intersect_exact (one : Encoded first ours) (other : Encoded second theirs) (coll : Collection) (action : Action) :
    Allowed (intersectGrants first second) (intersection first second) coll.text action.text ↔
      Allowed first ours coll.text action.text ∧ Allowed second theirs coll.text action.text := by
  rw [← covered_exact (intersect_encoded one other),← covered_exact one,← covered_exact other,← meets_exact]
  simp only [mem_intersect one other]

end

theorem whole_encoded (all : Bool) : Encoded ⟨all,[]⟩ [] := ⟨rfl,fun _ member => absurd member List.not_mem_nil,List.not_mem_nil⟩

-- What encodeApiKeyScopes has gathered after some of the entries.
structure Gathered (scopes : List Json) (encoded : Bool × List Text) : Prop where
  all : encoded.1 = true ↔ ∃ scope ∈ scopes, string (scope.get "collection") = some star ∧ star ∈ strings (scope.get "actions")
  parts : ∀ part, part ∈ encoded.2 ↔ ∃ scope ∈ scopes, ∃ coll action, string (scope.get "collection") = some coll ∧ (coll ≠ [] ∧ ',' ∉ coll ∧ ':' ∉ coll) ∧
    action ∈ strings (scope.get "actions") ∧ part ∈ actionParts coll action

theorem addScope_gathered {scopes : List Json} {encoded : Bool × List Text} (gathered : Gathered scopes encoded) (scope : Json) :
    Gathered (scopes ++ [scope]) (addScope encoded scope) := by
  have split (fits : Json → Prop) : (∃ held ∈ scopes ++ [scope], fits held) ↔ (∃ held ∈ scopes, fits held) ∨ fits scope := by
    simp only [List.mem_append,List.mem_singleton]
    constructor
    · rintro ⟨held,member | same,fit⟩
      · exact .inl ⟨held,member,fit⟩
      · exact .inr (same ▸ fit)
    · rintro (⟨held,member,fit⟩ | fit)
      · exact ⟨held,.inl member,fit⟩
      · exact ⟨scope,.inr rfl,fit⟩
  unfold addScope
  cases found : string (scope.get "collection") with
  | none =>
    refine ⟨?_,fun part => ?_⟩
    · rw [split,gathered.all]
      simp [found]
    · rw [split,gathered.parts]
      simp [found]
  | some coll =>
    by_cases refused : coll = [] ∨ ',' ∈ coll ∨ ':' ∈ coll
    · simp only [if_pos refused]
      refine ⟨?_,fun part => ?_⟩
      · rw [split,gathered.all]
        have other : coll ≠ star := by
          rintro same
          rw [same] at refused
          revert refused
          decide
        simp [found,other]
      · rw [split,gathered.parts]
        simp [found]
        tauto
    · simp only [if_neg refused]
      refine ⟨?_,fun part => ?_⟩
      · rw [split,Bool.or_eq_true,gathered.all]
        simp [found]
      · rw [split,List.mem_append,gathered.parts]
        have sound : coll ≠ [] ∧ ',' ∉ coll ∧ ':' ∉ coll := by
          simpa [not_or] using refused
        simp [found,sound]

theorem encode_gathered (scopes : List Json) : Gathered scopes (scopes.foldl addScope (false,[])) := by
  have fold (rest front : List Json) (encoded : Bool × List Text) (gathered : Gathered front encoded) :
      Gathered (front ++ rest) (rest.foldl addScope encoded) := by
    induction rest generalizing front encoded with
    | nil => simpa using gathered
    | cons scope more ih =>
      have later := ih (front ++ [scope]) _ (addScope_gathered gathered scope)
      simpa using later
  exact fold scopes [] (false,[]) ⟨by simp,by simp⟩

def keyParts (scopes : List Json) : List Text := (scopes.foldl addScope (false,[])).2.eraseDups

theorem mem_actionParts {coll action part : Text} : part ∈ actionParts coll action ↔ (',' ∉ action ∧ ':' ∉ action) ∧
    ((action = star ∧ coll ≠ star ∧ part = entry coll star) ∨
      (action = write ∧ (part = entry coll Action.create.text ∨ part = entry coll Action.update.text)) ∨
      (action ≠ star ∧ action ≠ write ∧ part = entry coll action)) := by
  have apart : write ≠ star := by decide
  unfold actionParts
  split
  · next refused =>
    simp only [List.not_mem_nil,false_iff]
    tauto
  · next plain =>
    have sound : ',' ∉ action ∧ ':' ∉ action := not_or.mp plain
    split
    · next wild =>
      split
      · next total => simp [wild,total,apart.symm]
      · next narrow => simp [wild,narrow,apart.symm,show ',' ∉ star by decide,show ':' ∉ star by decide]
    · next narrow =>
      split
      · next writes => simp [writes,apart,show ',' ∉ write by decide,show ':' ∉ write by decide]
      · next other => simp [narrow,other,sound]

theorem encoded_key (scopes : List Json) (all : Bool) : Encoded ⟨all,listing ',' (keyParts scopes)⟩ (keyParts scopes) := by
  have known (part : Text) (member : part ∈ keyParts scopes) := ((encode_gathered scopes).parts part).mp (List.mem_eraseDups.mp member)
  refine ⟨rfl,fun part member => ?_,fun member => ?_⟩
  · obtain ⟨scope,_,coll,action,_,sound,_,held⟩ := known part member
    obtain ⟨plain,⟨_,_,same⟩ | ⟨_,same | same⟩ | ⟨_,_,same⟩⟩ := mem_actionParts.mp held
    · exact same ▸ entry_apart sound.2.1 (by decide)
    · exact same ▸ entry_apart sound.2.1 (by decide)
    · exact same ▸ entry_apart sound.2.1 (by decide)
    · exact same ▸ entry_apart sound.2.1 plain.1
  · obtain ⟨scope,_,coll,action,_,sound,_,held⟩ := known _ member
    obtain ⟨plain,⟨_,narrow,same⟩ | ⟨_,same | same⟩ | ⟨apart,_,same⟩⟩ := mem_actionParts.mp held
    · exact narrow (entry_inj same (by decide) (by decide)).1.symm
    · exact absurd (entry_inj same (by decide) (by decide)).2 (by decide)
    · exact absurd (entry_inj same (by decide) (by decide)).2 (by decide)
    · exact apart (entry_inj same (by decide) plain.2).2.symm

theorem named_exact (coll : Text) (scope : Json) : named coll scope = true ↔ ∃ name, string (scope.get "collection") = some name ∧ (name = coll ∨ name = star) := by
  unfold named
  rw [Bool.or_eq_true,decide_eq_true_eq,decide_eq_true_eq]
  constructor
  · rintro (same | same)
    · exact ⟨_,same,.inl rfl⟩
    · exact ⟨_,same,.inr rfl⟩
  · rintro ⟨name,found,same | same⟩
    · exact .inl (same ▸ found)
    · exact .inr (same ▸ found)

theorem part_holds {coll : Collection} {action : Action} {name item : Text} (sound : ',' ∉ name ∧ ':' ∉ name) :
    (entry coll.text action.text ∈ actionParts name item ∨ entry coll.text star ∈ actionParts name item ∨ entry star action.text ∈ actionParts name item) ↔
      (name = coll.text ∧ Holds action item) ∨ (name = star ∧ Holds action item ∧ item ≠ star) := by
  have asked : ':' ∉ action.text := action_apart ':' (.inr (.inl rfl))
  have quiet : ',' ∉ action.text := action_apart ',' (.inl rfl)
  have apart : action.text ≠ star := action_star
  have other : action.text ≠ write := action_write
  have plain : ':' ∉ star := by decide
  have writes : write ≠ star := by decide
  have writing : (action.text = Action.create.text ∨ action.text = Action.update.text) ↔ (action = .create ∨ action = .update) := by
    cases action <;> decide
  have star_create : star ≠ Action.create.text ∧ star ≠ Action.update.text := by decide
  constructor
  · rintro (member | member | member)
    · obtain ⟨clean,⟨_,_,same⟩ | ⟨kind,same | same⟩ | ⟨_,_,same⟩⟩ := mem_actionParts.mp member
      · exact absurd (entry_inj same asked plain).2 apart
      · have cut := entry_inj same asked (by decide)
        exact .inl ⟨cut.1.symm,.inr (.inr ⟨writing.mp (.inl cut.2),kind⟩)⟩
      · have cut := entry_inj same asked (by decide)
        exact .inl ⟨cut.1.symm,.inr (.inr ⟨writing.mp (.inr cut.2),kind⟩)⟩
      · have cut := entry_inj same asked clean.2
        exact .inl ⟨cut.1.symm,.inl cut.2.symm⟩
    · obtain ⟨clean,⟨wild,_,same⟩ | ⟨_,same | same⟩ | ⟨narrow,_,same⟩⟩ := mem_actionParts.mp member
      · exact .inl ⟨(entry_inj same plain plain).1.symm,.inr (.inl wild)⟩
      · exact absurd (entry_inj same plain (by decide)).2 star_create.1
      · exact absurd (entry_inj same plain (by decide)).2 star_create.2
      · exact absurd (entry_inj same plain clean.2).2.symm narrow
    · obtain ⟨clean,⟨_,_,same⟩ | ⟨kind,same | same⟩ | ⟨narrow,_,same⟩⟩ := mem_actionParts.mp member
      · exact absurd (entry_inj same asked plain).2 apart
      · have cut := entry_inj same asked (by decide)
        exact .inr ⟨cut.1.symm,.inr (.inr ⟨writing.mp (.inl cut.2),kind⟩),kind ▸ writes⟩
      · have cut := entry_inj same asked (by decide)
        exact .inr ⟨cut.1.symm,.inr (.inr ⟨writing.mp (.inr cut.2),kind⟩),kind ▸ writes⟩
      · have cut := entry_inj same asked clean.2
        exact .inr ⟨cut.1.symm,.inl cut.2.symm,narrow⟩
  · rintro (⟨same,held⟩ | ⟨same,held,narrow⟩)
    · subst same
      rcases held with held | held | ⟨kind,held⟩ <;> subst held
      · exact .inl (mem_actionParts.mpr ⟨⟨quiet,asked⟩,.inr (.inr ⟨apart,other,rfl⟩)⟩)
      · exact .inr (.inl (mem_actionParts.mpr ⟨by decide,.inl ⟨rfl,collection_star,rfl⟩⟩))
      · refine .inl (mem_actionParts.mpr ⟨by decide,.inr (.inl ⟨rfl,?_⟩)⟩)
        exact (writing.mpr kind).imp (congrArg _) (congrArg _)
    · subst same
      rcases held with held | held | ⟨kind,held⟩
      · subst held
        exact .inr (.inr (mem_actionParts.mpr ⟨⟨quiet,asked⟩,.inr (.inr ⟨apart,other,rfl⟩)⟩))
      · exact absurd held narrow
      · subst held
        refine .inr (.inr (mem_actionParts.mpr ⟨by decide,.inr (.inl ⟨rfl,?_⟩)⟩))
        exact (writing.mpr kind).imp (congrArg _) (congrArg _)

theorem key_allowed (scopes : List Json) (coll : Collection) (action : Action) :
    Allowed ⟨(scopes.foldl addScope (false,[])).1,listing ',' (keyParts scopes)⟩ (keyParts scopes) coll.text action.text ↔
      ∃ scope ∈ scopes, Granting coll.text action scope := by
  have gathered := encode_gathered scopes
  have known (part : Text) : part ∈ keyParts scopes ↔ _ := List.mem_eraseDups.trans (gathered.parts part)
  constructor
  · rintro (all | held)
    · obtain ⟨scope,member,name,held⟩ := gathered.all.mp all
      exact ⟨scope,member,(named_exact _ _).mpr ⟨star,name,.inr rfl⟩,star,held,.inr (.inl rfl)⟩
    · have found : ∃ scope ∈ scopes, ∃ name item, string (scope.get "collection") = some name ∧ (name ≠ [] ∧ ',' ∉ name ∧ ':' ∉ name) ∧ item ∈ strings (scope.get "actions") ∧
          (entry coll.text action.text ∈ actionParts name item ∨ entry coll.text star ∈ actionParts name item ∨ entry star action.text ∈ actionParts name item) := by
        rcases held with held | held | held
        · obtain ⟨scope,member,name,item,read,sound,inside,part⟩ := (known _).mp held
          exact ⟨scope,member,name,item,read,sound,inside,.inl part⟩
        · obtain ⟨scope,member,name,item,read,sound,inside,part⟩ := (known _).mp held
          exact ⟨scope,member,name,item,read,sound,inside,.inr (.inl part)⟩
        · obtain ⟨scope,member,name,item,read,sound,inside,part⟩ := (known _).mp held
          exact ⟨scope,member,name,item,read,sound,inside,.inr (.inr part)⟩
      obtain ⟨scope,member,name,item,read,sound,inside,part⟩ := found
      rcases (part_holds sound.2).mp part with ⟨same,holds⟩ | ⟨same,holds,_⟩
      · exact ⟨scope,member,(named_exact _ _).mpr ⟨name,read,.inl same⟩,item,inside,holds⟩
      · exact ⟨scope,member,(named_exact _ _).mpr ⟨name,read,.inr same⟩,item,inside,holds⟩
  · rintro ⟨scope,member,here,item,inside,holds⟩
    obtain ⟨name,read,same⟩ := (named_exact _ _).mp here
    have sound : name ≠ [] ∧ ',' ∉ name ∧ ':' ∉ name := by
      rcases same with same | same <;> rw [same]
      · exact ⟨collection_some,collection_apart (by decide),collection_apart (by decide)⟩
      · decide
    by_cases total : name = star ∧ item = star
    · exact .inl (gathered.all.mpr ⟨scope,member,total.1 ▸ read,total.2 ▸ inside⟩)
    · have part : entry coll.text action.text ∈ actionParts name item ∨ entry coll.text star ∈ actionParts name item ∨ entry star action.text ∈ actionParts name item := by
        refine (part_holds sound.2).mpr ?_
        rcases same with same | same
        · exact .inl ⟨same,holds⟩
        · exact .inr ⟨same,holds,fun wrong => total ⟨same,wrong⟩⟩
      refine .inr (part.imp (fun part => (known _).mpr ?_) (.imp (fun part => (known _).mpr ?_) fun part => (known _).mpr ?_)) <;>
        exact ⟨scope,member,name,item,read,sound,inside,part⟩

-- The rows leave no wildcard object and no wildcard action among the exact permissions.
structure Kept (perms : EffectivePermissions) : Prop where
  objects : ∀ object ∈ perms.anyAction, object ≠ "*"
  exact : ∀ held ∈ perms.exact, ∃ object action, held = PolicyFastPath.joined object action ∧ object ≠ "*" ∧ action ≠ "*"

theorem addRule_kept {perms : EffectivePermissions} (kept : Kept perms) (subjects : List String) (domain : String) (rule : List String) :
    Kept (addRule subjects domain perms rule) := by
  unfold addRule
  split
  · next po pa _ =>
    split
    · exact kept
    · split
      · exact kept
      · split
        · split
          · exact ⟨kept.objects,kept.exact⟩
          · exact kept
        · next object =>
          split
          · refine ⟨fun held member => ?_,kept.exact⟩
            rcases List.mem_cons.mp member with same | member
            · exact same ▸ object
            · exact kept.objects held member
          · next action =>
            refine ⟨kept.objects,fun held member => ?_⟩
            rcases List.mem_cons.mp member with same | member
            · exact ⟨po,pa,same,object,action⟩
            · exact kept.exact held member
  · exact kept

theorem permissions_kept (person : Person) : Kept person.permissions := by
  have fold (rules : List (List String)) (perms : EffectivePermissions) (kept : Kept perms) :
      Kept (rules.foldl (addRule (person.userId::person.roles) person.domain) perms) := by
    induction rules generalizing perms with
    | nil => exact kept
    | cons rule rest ih => exact ih _ (addRule_kept kept _ _ rule)
  exact fold person.rules _ ⟨fun _ member => absurd member List.not_mem_nil,fun _ member => absurd member List.not_mem_nil⟩

theorem joined_toList (left right : String) : (PolicyFastPath.joined left right).toList = left.toList ++ '\x00'::right.toList := by
  unfold PolicyFastPath.joined separator
  simp

theorem spelled_entry {text name action : Text} (marked : '\x00' ∈ text) (first : ':' ∉ name) (second : ':' ∉ action)
    (same : spelled text = entry name action) : text = name ++ '\x00'::action := by
  have whole := List.takeWhile_append_dropWhile (p := fun char => decide (char ≠ '\x00')) (l := text)
  unfold spelled at same
  split at same
  · next none_left =>
    rw [List.dropWhile_eq_nil_iff] at none_left
    have wrong := none_left _ marked
    simp at wrong
  · next char rest cut =>
    have stops : char = '\x00' := by
      have stopped := List.head?_dropWhile_not (fun char => decide (char ≠ '\x00')) text
      rw [cut] at stopped
      simpa using stopped
    obtain ⟨front,back⟩ := cut_unique same first second
    rw [← whole,cut,stops,front,back]

def sessionParts (person : Person) : List Text :=
  (person.permissions.anyAction.map (fun object => entry object.toList star) ++ person.permissions.exact.map fun held => spelled held.toList).filter fun part => ',' ∉ part

section
variable {person : Person}

theorem exact_spelled {name action : Text} (first : ':' ∉ name) (second : ':' ∉ action)
    (held : entry name action ∈ sessionParts person) :
    (action = star ∧ String.ofList name ∈ person.permissions.anyAction) ∨
      PolicyFastPath.joined (String.ofList name) (String.ofList action) ∈ person.permissions.exact := by
  have kept := permissions_kept person
  rcases List.mem_append.mp (List.mem_of_mem_filter held) with member | member
  · obtain ⟨object,inside,same⟩ := List.mem_map.mp member
    have cut := entry_inj same (by decide) second
    refine .inl ⟨cut.2.symm,?_⟩
    rw [← cut.1,String.ofList_toList]
    exact inside
  · obtain ⟨text,inside,same⟩ := List.mem_map.mp member
    obtain ⟨object,verb,shape,_⟩ := kept.exact text inside
    have marked : '\x00' ∈ text.toList := by
      rw [shape,joined_toList]
      simp
    have spelt := spelled_entry marked first second same
    have whole : text = PolicyFastPath.joined (String.ofList name) (String.ofList action) := by
      apply String.toList_injective
      rw [spelt,joined_toList,String.toList_ofList,String.toList_ofList]
    exact .inr (whole ▸ inside)

theorem session_wild {name action : Text} (first : '\x00' ∉ name) (second : '\x00' ∉ action)
    (held : PolicyFastPath.joined (String.ofList name) (String.ofList action) ∈ person.permissions.exact) : name ≠ star ∧ action ≠ star := by
  obtain ⟨object,verb,same,object_plain,verb_plain⟩ := (permissions_kept person).exact _ held
  have texts := congrArg String.toList same
  rw [joined_toList,joined_toList,String.toList_ofList,String.toList_ofList] at texts
  obtain ⟨names,verbs⟩ := cut_unique texts.symm first second
  constructor
  · intro wild
    apply object_plain
    apply String.toList_injective
    rw [names,wild]
    rfl
  · intro wild
    apply verb_plain
    apply String.toList_injective
    rw [verbs,wild]
    rfl

theorem session_encoded (mortal : person.god = false) : Encoded (collectionGrantsFor person) (sessionParts person) := by
  refine ⟨?_,fun part member => ?_,fun member => ?_⟩
  · unfold collectionGrantsFor
    rw [mortal]
    rfl
  · simpa using (List.mem_filter.mp member).2
  · rcases exact_spelled (by decide) (by decide) member with ⟨_,held⟩ | held
    · exact (permissions_kept person).objects _ held rfl
    · exact (session_wild (by decide) (by decide) held).1 rfl

theorem session_allowed (coll : Collection) (action : Action) (mortal : person.god = false) :
    Allowed (collectionGrantsFor person) (sessionParts person) coll.text action.text ↔ allowedBy person.permissions coll.name action.name = true := by
  have named : ',' ∉ coll.text ∧ ':' ∉ coll.text ∧ '\x00' ∉ coll.text :=
    ⟨collection_apart (by decide),collection_apart (by decide),collection_apart (by decide)⟩
  have asked : ',' ∉ action.text ∧ ':' ∉ action.text ∧ '\x00' ∉ action.text :=
    ⟨action_apart ',' (.inl rfl),action_apart ':' (.inr (.inl rfl)),action_apart _ (.inr (.inr rfl))⟩
  have whole : String.ofList coll.text = coll.name := String.ofList_toList
  have all : (collectionGrantsFor person).all = person.permissions.all := by
    unfold collectionGrantsFor
    rw [mortal]
    rfl
  unfold Allowed allowedBy
  rw [all,Bool.or_eq_true,Bool.or_eq_true,decide_eq_true_eq,decide_eq_true_eq]
  constructor
  · rintro (total | held | held | held)
    · exact .inl (.inl total)
    · rcases exact_spelled named.2.1 asked.2.1 held with ⟨wild,_⟩ | held
      · exact absurd wild action_star
      · rw [whole] at held
        exact .inr held
    · rcases exact_spelled named.2.1 (by decide) held with ⟨_,held⟩ | held
      · rw [whole] at held
        exact .inl (.inr held)
      · exact absurd rfl (session_wild named.2.2 (by decide) held).2
    · rcases exact_spelled (by decide) asked.2.1 held with ⟨wild,_⟩ | held
      · exact absurd wild action_star
      · exact absurd rfl (session_wild (by decide) asked.2.2 held).1
  · rintro ((total | held) | held)
    · exact .inl total
    · refine .inr (.inr (.inl (List.mem_filter.mpr ⟨List.mem_append_left _ (List.mem_map.mpr ⟨_,held,rfl⟩),?_⟩)))
      exact decide_eq_true (entry_apart named.1 (by decide))
    · have spelt : spelled (PolicyFastPath.joined coll.name action.name).toList = entry coll.text action.text := by
        have stops : ∀ char ∈ coll.text, decide (char ≠ '\x00') = true := fun char member => decide_eq_true fun wrong => named.2.2 (wrong ▸ member)
        have verb : action.name.toList = action.text := String.toList_ofList
        rw [joined_toList,verb]
        unfold spelled
        rw [show coll.name.toList = coll.text from rfl,List.dropWhile_append_of_pos stops,List.takeWhile_append_of_pos stops]
        simp [entry]
      refine .inr (.inl (List.mem_filter.mpr ⟨List.mem_append_right _ (List.mem_map.mpr ⟨_,held,spelt⟩),?_⟩))
      exact decide_eq_true (entry_apart named.1 asked.1)

end

theorem person_allows (role : EngineRole) (person : Person) (coll : Collection) (action : Action) :
    zveltio_collection_allows (published role (collectionGrantsFor person)) coll.text action.text = checkPermission person coll.name action.name := by
  unfold checkPermission
  rw [person.user,if_neg Bool.false_ne_true,Bool.eq_iff_iff]
  cases god : person.god with
  | true =>
    have all : collectionGrantsFor person = ⟨true,[]⟩ := by
      unfold collectionGrantsFor
      rw [god]
      rfl
    rw [all,allows_exact (whole_encoded true)]
    simp [Allowed]
  | false =>
    rw [allows_exact (session_encoded god),session_allowed coll action god,Bool.false_or]

-- A caller's entries, and whether who stands behind the caller may.
def scopesOf (reader : Reader) (raw : Json) : List Json := (entries reader raw).getD []

theorem encode_exact (reader : Reader) (raw : Json) : Encoded (encodeApiKeyScopes reader raw) (keyParts (scopesOf reader raw)) ∧
    (∀ (coll : Collection) (action : Action), Allowed (encodeApiKeyScopes reader raw) (keyParts (scopesOf reader raw)) coll.text action.text ↔
      ∃ scope ∈ scopesOf reader raw, Granting coll.text action scope) := by
  unfold encodeApiKeyScopes scopesOf
  cases entries reader raw with
  | none => exact ⟨encoded_key [] false,fun coll action => key_allowed [] coll action⟩
  | some scopes => exact ⟨encoded_key scopes _,fun coll action => key_allowed scopes coll action⟩

theorem key_allows (role : EngineRole) (reader : Reader) (raw : Json) (issuer : Issuer) (coll : Collection) (action : Action) :
    zveltio_collection_allows (published role ((Caller.key raw issuer).grants reader)) coll.text action.text = true ↔
      (∃ scope ∈ scopesOf reader raw, Granting coll.text action scope) ∧ keyIssuerAllows issuer coll.name action.name = true := by
  obtain ⟨encoded,own⟩ := encode_exact reader raw
  unfold Caller.grants keyIssuerAllows
  cases issuer with
  | job =>
    rw [allows_exact encoded,own]
    simp
  | missing =>
    rw [allows_exact (intersect_encoded encoded (whole_encoded false)),intersect_exact encoded (whole_encoded false)]
    simp [Allowed]
  | user person =>
    have issued := person_allows role person coll action
    simp only
    rw [← issued]
    cases god : person.god with
    | true =>
      have whole : Encoded (collectionGrantsFor person) [] := by
        unfold collectionGrantsFor
        rw [god]
        exact whole_encoded true
      rw [allows_exact (intersect_encoded encoded whole),intersect_exact encoded whole,own,allows_exact whole]
    | false =>
      have whole := session_encoded god
      rw [allows_exact (intersect_encoded encoded whole),intersect_exact encoded whole,own,allows_exact whole]

theorem empty_scopes (reader : Reader) {raw : Json} (nothing : falsy raw = true) : scopesOf reader raw = [] := by
  unfold scopesOf entries
  cases raw with
  | str text =>
    have empty : text = "" := of_decide_eq_true nothing
    subst empty
    have chars : "".toList = [] := rfl
    simp only [chars,reader.empty]
    rfl
  | arr items => cases nothing
  | obj members => cases nothing
  | null => rfl
  | bool value => rfl
  | num number => rfl

theorem key_checked (reader : Reader) (raw : Json) (issuer : Issuer) (coll : Collection) (action : Action) :
    checkAccess reader (.key raw issuer) coll action = some true ↔
      scopesAllow coll.text action (scopesOf reader raw) = some true ∧ keyIssuerAllows issuer coll.name action.name = true := by
  have silent : scopesAllow coll.text action [] ≠ some true := by
    intro wrong
    cases wrong
  unfold checkAccess
  simp only
  split
  · next nothing => simp [empty_scopes reader nothing,silent]
  · unfold scopesOf
    split
    · next none_left => simp [none_left,silent]
    · next empty => simp [empty,silent]
    · next scopes _ found =>
      simp only [found,Option.getD_some,Option.map_eq_some_iff]
      constructor
      · rintro ⟨allowed,same,both⟩
        rw [Bool.and_eq_true] at both
        exact ⟨both.1 ▸ same,both.2⟩
      · rintro ⟨same,issued⟩
        exact ⟨true,same,issued⟩

-- When both sides come alike: for a session always, for a key when its issuer is refused or its scopes fit.
def Alike (reader : Reader) (coll : Collection) (action : Action) : Caller → Prop
  | .session _ => True
  | .key raw issuer => keyIssuerAllows issuer coll.name action.name = true → Fitting coll.text action (scopesOf reader raw)

theorem collection_allows_exact (role : EngineRole) (reader : Reader) (caller : Caller) (coll : Collection) (action : Action) :
    (zveltio_collection_allows (published role (caller.grants reader)) coll.text action.text = true ↔ checkAccess reader caller coll action = some true) ↔
      Alike reader coll action caller := by
  cases caller with
  | session person =>
    refine iff_of_true ?_ trivial
    have alike := person_allows role person coll action
    unfold Caller.grants checkAccess
    simp [alike]
  | key raw issuer =>
    rw [key_allows,key_checked]
    unfold Alike
    simp only [← fitting_exact]
    constructor
    · intro alike issued
      exact ⟨fun granted => (alike.mp ⟨granted,issued⟩).1,fun allowed => (alike.mpr ⟨allowed,issued⟩).1⟩
    · intro alike
      constructor
      · rintro ⟨granted,issued⟩
        exact ⟨(alike issued).mp granted,issued⟩
      · rintro ⟨allowed,issued⟩
        exact ⟨(alike issued).mpr allowed,issued⟩

-- A null entry before a good one: the check throws at it, the encoding passes it over.
def torn : Json := .arr [.null,.obj [("collection",.str "posts"),("actions",.arr [.str "read"])]]

theorem torn_scopes : ¬ ∀ (role : EngineRole) (reader : Reader) (caller : Caller) (coll : Collection) (action : Action),
    zveltio_collection_allows (published role (caller.grants reader)) coll.text action.text = true ↔ checkAccess reader caller coll action = some true := by
  intro claim
  have safe : identifier "posts".toList = true := by simp [identifier,lowercase]
  have alike := claim ⟨[],false,by decide⟩ ⟨fun _ => none,rfl⟩ (.key torn .job) ⟨"posts",safe⟩ .read
  rw [key_allows,key_checked] at alike
  have granting : Granting (Collection.text ⟨"posts",safe⟩) .read (.obj [("collection",.str "posts"),("actions",.arr [.str "read"])]) := by
    refine ⟨?_,['r','e','a','d'],?_,.inl rfl⟩
    · simp [named,string,get_cons,Collection.text]
    · simp [strings,string,get_cons]
  have allowed := (alike.mp ⟨⟨_,List.mem_cons_of_mem _ (List.mem_cons_self ..),granting⟩,rfl⟩).1
  cases allowed

end Zveltio.CollectionGrants

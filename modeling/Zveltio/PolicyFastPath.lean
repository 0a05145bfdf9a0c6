import Zveltio.Runs
import Mathlib.Data.List.Basic
import Mathlib.Logic.Relation
namespace Zveltio.PolicyFastPath

open Runs

-- Rows of zvd_permissions as the live model holds them: p as casbin keeps it, g as user,
-- role and domain.
structure Rules where
  p : List (List String)
  g : List (String × String × String)

structure Question where
  domain : String
  userId : String
  resource : String
  action : String
  deriving DecidableEq

-- A role grant under the domain matching function: '*' reaches every domain.
def Link (rules : Rules) (domain user role : String) : Prop :=
  ∃ given, (user,role,given) ∈ rules.g ∧ (given = "*" ∨ given = domain)

def Reaches (rules : Rules) (domain : String) : String → String → Prop := Relation.ReflTransGen (Link rules domain)

-- The subject and the domain of a rule, then its object and its action.
def Applies (rules : Rules) (question : Question) (rule : List String) : Prop :=
  (∃ sub, rule[0]? = some sub ∧ Reaches rules question.domain question.userId sub) ∧
    (rule[1]? = some "*" ∨ rule[1]? = some question.domain)

def Matches (rules : Rules) (question : Question) (rule : List String) : Prop :=
  Applies rules question rule ∧
    (rule[2]? = some question.resource ∨ rule[2]? = some "*" ∧ rule[3]? = some "*") ∧
    (rule[3]? = some question.action ∨ rule[3]? = some "*")

-- CASBIN_MODEL: m under the effect some(where (p.eft == allow)).
def m (rules : Rules) (question : Question) : Prop := ∃ rule ∈ rules.p, Matches rules question rule

structure EffectivePermissions where
  all : Bool
  exact : List String
  anyAction : List String
  deriving DecidableEq

def separator : String := "\u0000"

def joined (left right : String) : String := left ++ separator ++ right

def allowedBy (perms : EffectivePermissions) (resource action : String) : Bool :=
  perms.all || decide (resource ∈ perms.anyAction) || decide (joined resource action ∈ perms.exact)

-- One round of the loop over the rules; a rule with a missing column is passed over.
def addRule (subjects : List String) (domain : String) (perms : EffectivePermissions) : List String → EffectivePermissions
  | ps::pd::po::pa::_ =>
    if ps ∉ subjects then perms
    else if pd ≠ "*" ∧ pd ≠ domain then perms
    else if po = "*" then if pa = "*" then {perms with all := true} else perms
    else if pa = "*" then {perms with anyAction := po::perms.anyAction}
    else {perms with exact := joined po pa::perms.exact}
  | _ => perms

def policyObjectIndex (rules : Rules) : List String := rules.p.filterMap fun rule => rule[2]?

def UNKNOWN_RESOURCE : String := "\u0000unnamed"

def MEMBER_ROLE : String := "member"

-- getImplicitRolesForUser and the hash are casbin's and the runtime's own.
structure Setting where
  rules : Rules
  getImplicitRolesForUser : String → String → List String
  hmac : String → String → String
  INSTANCE_ID : String
  valkey : Bool

def Setting.Exact (setting : Setting) : Prop := ∀ userId domain role,
  role ∈ setting.getImplicitRolesForUser userId domain ↔ Relation.TransGen (Link setting.rules domain) userId role

-- The memos and both caches; unloaded holds a user's roles with their domains.
structure State where
  gen : Nat
  policyObjects : Option (List String)
  effective : String → Option EffectivePermissions
  unloaded : String → Option (List (String × String))
  shared : String → Option String
  localPerm : String → Option Bool

def State.initial (gen : Nat) : State := ⟨gen,none,fun _ => none,fun _ => none,fun _ => none,fun _ => none⟩

-- What goes wrong during a call, and whether it runs inside a request's transaction.
structure Faults where
  get : Bool
  set : Bool
  table : Bool
  transaction : Bool

def cacheNamespace (setting : Setting) (gen : Nat) : String := setting.INSTANCE_ID ++ "." ++ toString gen

def named (index : List String) (resource : String) : String := if resource ∈ index then resource else UNKNOWN_RESOURCE

def filedUnder (index : List String) (question : Question) : String :=
  question.domain ++ ":" ++ question.userId ++ ":" ++ named index question.resource ++ ":" ++ question.action

def cacheKey (setting : Setting) (gen : Nat) (index : List String) (question : Question) : String :=
  "perm:" ++ cacheNamespace setting gen ++ ":" ++ filedUnder index question

def encodePermCache (hmac : String → String → String) (key : String) (allowed : Bool) : String :=
  let value := if allowed then "1" else "0"
  value ++ ":" ++ hmac key value

def decodePermCache (hmac : String → String → String) (key raw : String) : Option Bool :=
  match raw.toList.dropWhile (· ≠ ':') with
  | [] => none
  | _::storedHmac =>
    let value := String.ofList (raw.toList.takeWhile (· ≠ ':'))
    if value ≠ "1" ∧ value ≠ "0" then none
    else if String.ofList storedHmac = hmac key value then some (value = "1")
    else none

-- The table's g rows of the user; none where the read throws.
def ownRows (rules : Rules) (userId : String) : List (String × String) :=
  (rules.g.filter fun row => row.1 = userId).map Prod.snd

def rolesIn (domain : String) (rows : List (String × String)) : List String :=
  (rows.filter fun row => row.2 = "*" ∨ row.2 = domain).map Prod.fst

local instance lawful : LawfulBEq (String × String × String) := inferInstance

def unloadedRoles (setting : Setting) (state : State) (userId domain : String) (faults : Faults) :
    State × Option (List String) :=
  if userId = "public" ∨ userId.startsWith "apikey:" then (state,some [])
  else if (userId,MEMBER_ROLE,"*") ∈ setting.rules.g then (state,some [])
  else match state.unloaded userId with
    | some rows => (state,some (rolesIn domain rows))
    | none =>
      if faults.table then (state,none)
      else
        let rows := ownRows setting.rules userId
        (if faults.transaction then state else {state with unloaded := Function.update state.unloaded userId (some rows)},
          some (rolesIn domain rows))

-- The flag is unread: the table could not be read, and nothing is filed.
def effectivePermissions (setting : Setting) (state : State) (userId domain : String) (faults : Faults) :
    State × EffectivePermissions × Bool :=
  match state.effective (joined domain userId) with
  | some perms => (state,perms,false)
  | none =>
    let loaded := unloadedRoles setting state userId domain faults
    let subjects := userId::setting.getImplicitRolesForUser userId domain ++
      (loaded.2.getD []).flatMap fun direct => direct::setting.getImplicitRolesForUser direct domain
    let perms := setting.rules.p.foldl (addRule subjects domain) ⟨false,[],[]⟩
    if loaded.2 = none then (loaded.1,perms,true)
    else ({loaded.1 with effective := Function.update loaded.1.effective (joined domain userId) (some perms)},perms,false)

def cached (setting : Setting) (state : State) (key : String) (faults : Faults) : Option Bool :=
  if setting.valkey then
    if faults.get then none else (state.shared key).bind (decodePermCache setting.hmac key)
  else state.localPerm key

def file (setting : Setting) (state : State) (key : String) (allowed : Bool) (faults : Faults) : State :=
  if setting.valkey then
    if faults.set then state
    else {state with shared := Function.update state.shared key (some (encodePermCache setting.hmac key allowed))}
  else {state with localPerm := Function.update state.localPerm key (some allowed)}

-- gen is the generation the caller captured.
def casbinAllows (setting : Setting) (state : State) (question : Question) (gen : Nat) (faults : Faults) : State × Bool :=
  let index := state.policyObjects.getD (policyObjectIndex setting.rules)
  let indexed := {state with policyObjects := some index}
  let key := cacheKey setting state.gen index question
  match cached setting indexed key faults with
  | some allowed => (indexed,allowed)
  | none =>
    let resolved := effectivePermissions setting indexed question.userId question.domain faults
    let result := allowedBy resolved.2.1 question.resource question.action
    if resolved.2.2 ∨ gen ≠ state.gen then (resolved.1,result)
    else (file setting resolved.1 key result faults,result)

-- A clear that follows no policy change moves the generation; entries lapse, are evicted
-- or are dropped for one user.
inductive Action where
  | call (question : Question) (gen : Nat) (faults : Faults)
  | bump
  | dropObjects
  | dropEffective (key : String)
  | dropUnloaded (userId : String)
  | dropShared (key : String)
  | dropLocal (key : String)

def step (setting : Setting) (state : State) : Action → State × List (Question × Bool)
  | .call question gen faults =>
    let answer := casbinAllows setting state question gen faults
    (answer.1,[(question,answer.2)])
  | .bump => ({state with gen := state.gen + 1},[])
  | .dropObjects => ({state with policyObjects := none},[])
  | .dropEffective key => ({state with effective := Function.update state.effective key none},[])
  | .dropUnloaded userId => ({state with unloaded := Function.update state.unloaded userId none},[])
  | .dropShared key => ({state with shared := Function.update state.shared key none},[])
  | .dropLocal key => ({state with localPerm := Function.update state.localPerm key none},[])

def asked : List Action → List Question
  | [] => []
  | .call question _ _::rest => question::asked rest
  | _::rest => asked rest

-- A rule for the object '*' and one action, asked for by that name, stands beside the
-- total rule, and a rule's joined object and action are the request's only when they are.
structure Plain (rules : Rules) (question : Question) : Prop where
  wildcard : question.resource = "*" → ∀ rule ∈ rules.p, Applies rules question rule → rule[2]? = some "*" →
    rule[3]? = some question.action →
    ∃ total ∈ rules.p, Applies rules question total ∧ total[2]? = some "*" ∧ total[3]? = some "*"
  exact : ∀ rule ∈ rules.p, Applies rules question rule → ∀ obj act, rule[2]? = some obj → rule[3]? = some act →
    joined obj act = joined question.resource question.action → obj = question.resource ∧ act = question.action

-- Two questions share a key only where they are one question to the rules.
structure Apart (index : List String) (first second : Question) : Prop where
  subject : joined first.domain first.userId = joined second.domain second.userId →
    first.domain = second.domain ∧ first.userId = second.userId
  filed : filedUnder index first = filedUnder index second →
    (first.domain = second.domain ∧ first.userId = second.userId) ∧ first.action = second.action ∧
      (first.resource = second.resource ∨ first.resource ∉ index ∧ second.resource ∉ index)

theorem filedUnder_of_cacheKey {setting : Setting} (same : cacheKey setting gen index first = cacheKey setting gen' index second) :
    filedUnder index first = filedUnder index second := by
  have texts := congrArg String.toList same
  simp only [cacheKey,cacheNamespace,String.toList_append,List.append_assoc,List.append_cancel_left_eq] at texts
  have rests := congrArg (List.dropWhile (· ≠ ':')) texts
  have digits : ∀ (gen : Nat) (char : Char), char ∈ (toString gen).toList → decide (char ≠ ':') = true := by
    intro gen char member
    have digit : char.isDigit = true :=
      Nat.isDigit_of_mem_toDigits (b := 10) (by decide) (by decide) (by simpa [Nat.toString_eq_repr,Nat.toList_repr] using member)
    rcases Decidable.em (char = ':') with rfl | other
    · cases digit
    · simpa using other
  rw [List.dropWhile_append_of_pos (digits gen),List.dropWhile_append_of_pos (digits gen')] at rests
  exact String.toList_inj.mp (by simpa using rests)

theorem decode_encode (hmac : String → String → String) (key : String) (allowed : Bool) :
    decodePermCache hmac key (encodePermCache hmac key allowed) = some allowed := by
  cases allowed <;> simp [decodePermCache,encodePermCache]

theorem link_reaches {rules : Rules} (linked : Link rules domain userId direct) :
    Reaches rules domain direct role → Reaches rules domain userId role :=
  Relation.ReflTransGen.head linked

theorem reaches_exact {setting : Setting} (exact : setting.Exact) :
    Reaches setting.rules domain userId role ↔ role = userId ∨ role ∈ setting.getImplicitRolesForUser userId domain := by
  rw [exact,Reaches,Relation.reflTransGen_iff_eq_or_transGen]

theorem subjects_exact {setting : Setting} {roles : List String} (exact : setting.Exact)
    (own : ∀ direct ∈ roles, Link setting.rules domain userId direct) :
    role ∈ userId::setting.getImplicitRolesForUser userId domain ++
        roles.flatMap (fun direct => direct::setting.getImplicitRolesForUser direct domain) ↔
      Reaches setting.rules domain userId role := by
  simp only [List.mem_append,List.mem_cons,List.mem_flatMap,← reaches_exact exact]
  constructor
  · rintro (reached | ⟨direct,member,reached⟩)
    · exact reached
    · exact link_reaches (own direct member) reached
  · exact .inl

theorem rolesIn_linked {rules : Rules} (member : role ∈ rolesIn domain (ownRows rules userId)) :
    Link rules domain userId role := by
  simp only [rolesIn,ownRows,List.mem_map,List.mem_filter] at member
  obtain ⟨⟨role,given⟩,⟨⟨⟨user,row⟩,⟨held,own⟩,rfl⟩,reach⟩,rfl⟩ := member
  cases of_decide_eq_true own
  exact ⟨given,held,by simpa using reach⟩

def Accepted (rules : Rules) (question : Question) (rule : List String) : Prop :=
  Applies rules question rule ∧ ∃ po pa, rule[2]? = some po ∧ rule[3]? = some pa ∧
    (po = "*" ∧ pa = "*" ∨ po ≠ "*" ∧ (pa = "*" ∧ po = question.resource ∨
      pa ≠ "*" ∧ joined po pa = joined question.resource question.action))

theorem addRule_exact {rules : Rules} {question : Question}
    (reached : ∀ role, role ∈ subjects ↔ Reaches rules question.domain question.userId role) (perms : EffectivePermissions)
    (rule : List String) : allowedBy (addRule subjects question.domain perms rule) question.resource question.action = true ↔
      allowedBy perms question.resource question.action = true ∨ Accepted rules question rule := by
  rcases rule with _ | ⟨ps,_ | ⟨pd,_ | ⟨po,_ | ⟨pa,more⟩⟩⟩⟩
  case cons.cons.cons.cons =>
    have applies : Applies rules question (ps::pd::po::pa::more) ↔ ps ∈ subjects ∧ (pd = "*" ∨ pd = question.domain) := by
      simp [Applies,reached]
    simp only [addRule,Accepted,applies]
    by_cases subject : ps ∈ subjects
    · by_cases domain : pd = "*" ∨ pd = question.domain
      · have inside : ¬(pd ≠ "*" ∧ pd ≠ question.domain) := by tauto
        simp only [subject,domain,inside,not_true_eq_false,if_false,true_and]
        by_cases object : po = "*"
        · by_cases act : pa = "*" <;> simp [allowedBy,object,act]
        · by_cases act : pa = "*"
          · simp [allowedBy,object,act]
            grind
          · simp [allowedBy,object,act]
            grind
      · have outside : pd ≠ "*" ∧ pd ≠ question.domain := by tauto
        simp [subject,outside]
    · simp [subject]
  all_goals simp [addRule,Accepted]

theorem addRules_exact {rules : Rules} {question : Question}
    (reached : ∀ role, role ∈ subjects ↔ Reaches rules question.domain question.userId role) (perms : EffectivePermissions)
    (p : List (List String)) :
    allowedBy (p.foldl (addRule subjects question.domain) perms) question.resource question.action = true ↔
      allowedBy perms question.resource question.action = true ∨ ∃ rule ∈ p, Accepted rules question rule := by
  induction p generalizing perms with
  | nil => simp
  | cons rule rest ih =>
    rw [List.foldl_cons,ih,addRule_exact reached]
    simp only [List.exists_mem_cons_iff,or_assoc]

theorem accepted_exact {rules : Rules} {question : Question} (plain : Plain rules question) :
    (∃ rule ∈ rules.p, Accepted rules question rule) ↔ m rules question := by
  constructor
  · rintro ⟨rule,member,applies,po,pa,object,act,total | ⟨_,any | ⟨_,same⟩⟩⟩
    · exact ⟨rule,member,applies,.inr ⟨by rw [object,total.1],by rw [act,total.2]⟩,.inr (by rw [act,total.2])⟩
    · exact ⟨rule,member,applies,.inl (by rw [object,any.2]),.inr (by rw [act,any.1])⟩
    · obtain ⟨rfl,rfl⟩ := plain.exact rule member applies po pa object act same
      exact ⟨rule,member,applies,.inl object,.inl act⟩
  · rintro ⟨rule,member,applies,object,act⟩
    by_cases named : rule[2]? = some "*"
    · have total : ∃ total ∈ rules.p, Applies rules question total ∧ total[2]? = some "*" ∧ total[3]? = some "*" := by
        rcases act with act | act
        · rcases object with object | ⟨_,any⟩
          · exact plain.wildcard (Option.some.inj (object.symm.trans named)) rule member applies named act
          · exact ⟨rule,member,applies,named,any⟩
        · exact ⟨rule,member,applies,named,act⟩
      obtain ⟨total,member,applies,object,act⟩ := total
      exact ⟨total,member,applies,"*","*",object,act,.inl ⟨rfl,rfl⟩⟩
    · have object : rule[2]? = some question.resource := object.resolve_right fun both => named both.1
      have other : question.resource ≠ "*" := fun same => named (same ▸ object)
      rcases act with act | act
      · refine ⟨rule,member,applies,question.resource,question.action,object,act,.inr ⟨other,?_⟩⟩
        by_cases any : question.action = "*"
        · exact .inl ⟨any,rfl⟩
        · exact .inr ⟨any,rfl⟩
      · exact ⟨rule,member,applies,question.resource,"*",object,act,.inr ⟨other,.inl ⟨rfl,rfl⟩⟩⟩

theorem unnamed_exact {rules : Rules} {first second : Question}
    (subject : first.domain = second.domain ∧ first.userId = second.userId) (act : first.action = second.action)
    (away : first.resource ∉ policyObjectIndex rules) (allowed : m rules first) : m rules second := by
  obtain ⟨rule,member,applies,object,matched⟩ := allowed
  have missing : rule[2]? ≠ some first.resource := fun found => away (List.mem_filterMap.mpr ⟨rule,member,found⟩)
  refine ⟨rule,member,?_,.inr (object.resolve_left missing),act ▸ matched⟩
  simpa only [Applies,subject.1,subject.2] using applies

theorem apart_exact {rules : Rules} {first second : Question} (apart : Apart (policyObjectIndex rules) first second)
    (same : filedUnder (policyObjectIndex rules) first = filedUnder (policyObjectIndex rules) second) :
    m rules first ↔ m rules second := by
  obtain ⟨subject,act,resource | ⟨away,away'⟩⟩ := apart.filed same
  · have equal : first = second := by
      obtain ⟨domain,userId,resource',action⟩ := first
      simp_all
    rw [equal]
  · exact ⟨unnamed_exact subject act away,unnamed_exact ⟨subject.1.symm,subject.2.symm⟩ act.symm away'⟩

-- Every entry is the answer to one of the questions asked.
structure Agrees (setting : Setting) (questions : List Question) (state : State) : Prop where
  policyObjects : ∀ index, state.policyObjects = some index → index = policyObjectIndex setting.rules
  effective : ∀ key perms, state.effective key = some perms → ∃ question ∈ questions,
    key = joined question.domain question.userId ∧ ∀ other, other.domain = question.domain → other.userId = question.userId →
      (allowedBy perms other.resource other.action = true ↔ ∃ rule ∈ setting.rules.p, Accepted setting.rules other rule)
  unloaded : ∀ userId rows, state.unloaded userId = some rows → rows = ownRows setting.rules userId
  shared : ∀ key raw, state.shared key = some raw → ∃ question ∈ questions, ∃ gen allowed,
    key = cacheKey setting gen (policyObjectIndex setting.rules) question ∧
      raw = encodePermCache setting.hmac key allowed ∧ (allowed = true ↔ m setting.rules question)
  localPerm : ∀ key allowed, state.localPerm key = some allowed → ∃ question ∈ questions, ∃ gen,
    key = cacheKey setting gen (policyObjectIndex setting.rules) question ∧ (allowed = true ↔ m setting.rules question)

theorem updated [DecidableEq κ] {table : κ → Option ρ} (found : Function.update table key value other = some entry) :
    other = key ∧ value = some entry ∨ table other = some entry := by
  by_cases own : other = key
  · subst own
    rw [Function.update_self] at found
    exact .inl ⟨rfl,found⟩
  · rw [Function.update_of_ne own] at found
    exact .inr found

theorem initial_agrees (setting : Setting) (questions : List Question) (gen : Nat) : Agrees setting questions (State.initial gen) :=
  ⟨nofun,nofun,nofun,nofun,nofun⟩

theorem unloadedRoles_linked {setting : Setting} {state : State} (agrees : Agrees setting questions state)
    (member : role ∈ (unloadedRoles setting state userId domain faults).2.getD []) : Link setting.rules domain userId role := by
  unfold unloadedRoles at member
  split at member
  · cases member
  split at member
  · cases member
  cases memo : state.unloaded userId with
  | some rows =>
    simp only [memo,Option.getD_some] at member
    rw [agrees.unloaded userId rows memo] at member
    exact rolesIn_linked member
  | none =>
    simp only [memo] at member
    split at member
    · cases member
    · exact rolesIn_linked member

theorem unloadedRoles_agrees {setting : Setting} {state : State} (agrees : Agrees setting questions state)
    (userId domain : String) (faults : Faults) : Agrees setting questions (unloadedRoles setting state userId domain faults).1 := by
  unfold unloadedRoles
  split
  · exact agrees
  split
  · exact agrees
  cases memo : state.unloaded userId with
  | some rows => exact agrees
  | none =>
    dsimp only
    split
    · exact agrees
    split
    · exact agrees
    refine ⟨agrees.policyObjects,agrees.effective,fun user rows found => ?_,agrees.shared,agrees.localPerm⟩
    rcases updated found with ⟨rfl,filed⟩ | old
    · exact (Option.some.inj filed).symm
    · exact agrees.unloaded user rows old

theorem effectivePermissions_exact {setting : Setting} {state : State} (exact : setting.Exact)
    (agrees : Agrees setting questions state) {question : Question} (member : question ∈ questions)
    (apart : ∀ other ∈ questions, Apart (policyObjectIndex setting.rules) other question) (faults : Faults) :
    Agrees setting questions (effectivePermissions setting state question.userId question.domain faults).1 ∧
      (allowedBy (effectivePermissions setting state question.userId question.domain faults).2.1
        question.resource question.action = true ↔ ∃ rule ∈ setting.rules.p, Accepted setting.rules question rule) := by
  unfold effectivePermissions
  cases memo : state.effective (joined question.domain question.userId) with
  | some perms =>
    obtain ⟨other,inside,key,holds⟩ := agrees.effective _ perms memo
    obtain ⟨domain,userId⟩ := (apart other inside).subject key.symm
    exact ⟨agrees,holds question domain.symm userId.symm⟩
  | none =>
    have loaded := unloadedRoles_agrees agrees question.userId question.domain faults
    have holds : ∀ other : Question, other.domain = question.domain → other.userId = question.userId →
        (allowedBy (setting.rules.p.foldl (addRule (question.userId::setting.getImplicitRolesForUser question.userId question.domain ++
            ((unloadedRoles setting state question.userId question.domain faults).2.getD []).flatMap
              fun direct => direct::setting.getImplicitRolesForUser direct question.domain) question.domain) ⟨false,[],[]⟩)
          other.resource other.action = true ↔ ∃ rule ∈ setting.rules.p, Accepted setting.rules other rule) := by
      intro other domain userId
      rw [← domain,← userId,addRules_exact fun role => subjects_exact exact fun direct inside => unloadedRoles_linked agrees inside]
      simp [allowedBy]
    dsimp only
    split
    · exact ⟨loaded,holds question rfl rfl⟩
    · refine ⟨⟨loaded.policyObjects,fun key perms found => ?_,loaded.unloaded,loaded.shared,loaded.localPerm⟩,holds question rfl rfl⟩
      rcases updated found with ⟨own,filed⟩ | old
      · cases Option.some.inj filed
        exact ⟨question,member,own,holds⟩
      · exact loaded.effective key perms old

theorem cached_exact {setting : Setting} {state : State} (agrees : Agrees setting questions state)
    (apart : ∀ other ∈ questions, Apart (policyObjectIndex setting.rules) other question)
    (found : cached setting state (cacheKey setting gen (policyObjectIndex setting.rules) question) faults = some allowed) :
    allowed = true ↔ m setting.rules question := by
  unfold cached at found
  split at found
  · split at found
    · cases found
    · obtain ⟨raw,held,decoded⟩ := Option.bind_eq_some_iff.mp found
      obtain ⟨other,inside,gen,filed,key,rfl,answer⟩ := agrees.shared _ raw held
      rw [decode_encode] at decoded
      cases Option.some.inj decoded
      rw [answer,apart_exact (apart other inside) (filedUnder_of_cacheKey key).symm]
  · obtain ⟨other,inside,gen,key,answer⟩ := agrees.localPerm _ allowed found
    rw [answer,apart_exact (apart other inside) (filedUnder_of_cacheKey key).symm]

theorem file_agrees {setting : Setting} {state : State} (agrees : Agrees setting questions state) (member : question ∈ questions)
    (right : allowed = true ↔ m setting.rules question) (gen : Nat) (faults : Faults) :
    Agrees setting questions
      (file setting state (cacheKey setting gen (policyObjectIndex setting.rules) question) allowed faults) := by
  unfold file
  split
  · split
    · exact agrees
    · refine ⟨agrees.policyObjects,agrees.effective,agrees.unloaded,fun key raw found => ?_,agrees.localPerm⟩
      rcases updated found with ⟨rfl,filed⟩ | old
      · exact ⟨question,member,gen,allowed,rfl,(Option.some.inj filed).symm,right⟩
      · exact agrees.shared key raw old
  · refine ⟨agrees.policyObjects,agrees.effective,agrees.unloaded,agrees.shared,fun key value found => ?_⟩
    rcases updated found with ⟨rfl,filed⟩ | old
    · cases Option.some.inj filed
      exact ⟨question,member,gen,rfl,right⟩
    · exact agrees.localPerm key value old

theorem casbinAllows_exact {setting : Setting} {state : State} (exact : setting.Exact)
    (agrees : Agrees setting questions state) {question : Question} (member : question ∈ questions) (plain : Plain setting.rules question)
    (apart : ∀ other ∈ questions, Apart (policyObjectIndex setting.rules) other question) (gen : Nat) (faults : Faults) :
    Agrees setting questions (casbinAllows setting state question gen faults).1 ∧
      ((casbinAllows setting state question gen faults).2 = true ↔ m setting.rules question) := by
  have index : state.policyObjects.getD (policyObjectIndex setting.rules) = policyObjectIndex setting.rules := by
    cases memo : state.policyObjects with
    | none => rfl
    | some index => exact agrees.policyObjects index memo
  have indexed : Agrees setting questions {state with policyObjects := some (policyObjectIndex setting.rules)} :=
    ⟨fun _ found => (Option.some.inj found).symm,agrees.effective,agrees.unloaded,agrees.shared,agrees.localPerm⟩
  have resolved := effectivePermissions_exact exact indexed member apart faults
  rw [accepted_exact plain] at resolved
  simp only [casbinAllows,index]
  split
  · next allowed found => exact ⟨indexed,cached_exact indexed apart found⟩
  · split
    · exact resolved
    · exact ⟨file_agrees resolved.1 member resolved.2 state.gen faults,resolved.2⟩

theorem dropped [DecidableEq κ] {table : κ → Option ρ} (found : Function.update table key none other = some entry) :
    table other = some entry := by
  rcases updated found with ⟨_,impossible⟩ | old
  · cases impossible
  · exact old

theorem step_exact {setting : Setting} {state : State} (exact : setting.Exact) (agrees : Agrees setting questions state)
    (plain : ∀ question ∈ questions, Plain setting.rules question)
    (apart : ∀ first ∈ questions, ∀ second ∈ questions, Apart (policyObjectIndex setting.rules) first second)
    (action : Action) (inside : ∀ question ∈ asked [action], question ∈ questions) :
    Agrees setting questions (step setting state action).1 ∧
      ∀ answer ∈ (step setting state action).2, answer.2 = true ↔ m setting.rules answer.1 := by
  cases action with
  | call question gen faults =>
    have member := inside question (List.mem_cons_self ..)
    obtain ⟨kept,right⟩ := casbinAllows_exact exact agrees member (plain question member)
      (fun other inside => apart other inside question member) gen faults
    refine ⟨kept,fun answer member => ?_⟩
    cases List.mem_singleton.mp member
    exact right
  | bump => exact ⟨⟨agrees.policyObjects,agrees.effective,agrees.unloaded,agrees.shared,agrees.localPerm⟩,nofun⟩
  | dropObjects => exact ⟨⟨nofun,agrees.effective,agrees.unloaded,agrees.shared,agrees.localPerm⟩,nofun⟩
  | dropEffective key =>
    exact ⟨⟨agrees.policyObjects,fun other perms found => agrees.effective other perms (dropped found),agrees.unloaded,
      agrees.shared,agrees.localPerm⟩,nofun⟩
  | dropUnloaded userId =>
    exact ⟨⟨agrees.policyObjects,agrees.effective,fun other rows found => agrees.unloaded other rows (dropped found),
      agrees.shared,agrees.localPerm⟩,nofun⟩
  | dropShared key =>
    exact ⟨⟨agrees.policyObjects,agrees.effective,agrees.unloaded,fun other raw found => agrees.shared other raw (dropped found),
      agrees.localPerm⟩,nofun⟩
  | dropLocal key =>
    exact ⟨⟨agrees.policyObjects,agrees.effective,agrees.unloaded,agrees.shared,
      fun other value found => agrees.localPerm other value (dropped found)⟩,nofun⟩

theorem run_exact {setting : Setting} {state : State} (exact : setting.Exact) (agrees : Agrees setting questions state)
    (plain : ∀ question ∈ questions, Plain setting.rules question)
    (apart : ∀ first ∈ questions, ∀ second ∈ questions, Apart (policyObjectIndex setting.rules) first second)
    (actions : List Action) (inside : ∀ question ∈ asked actions, question ∈ questions) :
    ∀ answer ∈ (emit (step setting) state actions).2, answer.2 = true ↔ m setting.rules answer.1 := by
  induction actions generalizing state with
  | nil => nofun
  | cons action rest ih =>
    have split : asked (action::rest) = asked [action] ++ asked rest := by cases action <;> rfl
    rw [split] at inside
    obtain ⟨kept,right⟩ := step_exact exact agrees plain apart action fun question member =>
      inside question (List.mem_append_left _ member)
    intro answer member
    rcases List.mem_append.mp member with now | later
    · exact right answer now
    · exact ih kept (fun question member => inside question (List.mem_append_right _ member)) answer later

theorem casbinAllows_is_matcher {setting : Setting} (exact : setting.Exact) (gen : Nat) (actions : List Action)
    (plain : ∀ question ∈ asked actions, Plain setting.rules question)
    (apart : ∀ first ∈ asked actions, ∀ second ∈ asked actions, Apart (policyObjectIndex setting.rules) first second) :
    ∀ answer ∈ (emit (step setting) (State.initial gen) actions).2, answer.2 = true ↔ m setting.rules answer.1 :=
  run_exact exact (initial_agrees setting _ gen) plain apart actions fun _ member => member

section
def sampleRules : Rules :=
  ⟨[["editor","*","orders","read:all"],["auditor","*","orders:read","all"],["editor","*","*","read"]],[("ana","editor","*")]⟩

def setting (valkey : Bool) : Setting :=
  ⟨sampleRules,fun userId _ => if userId = "ana" then ["editor"] else [],fun key value => value ++ key,"a1b2c3d4",valkey⟩

theorem link_sample : Link sampleRules domain user role ↔ user = "ana" ∧ role = "editor" := by
  simp only [Link,sampleRules,List.mem_singleton,Prod.mk.injEq]
  constructor
  · rintro ⟨_,⟨rfl,rfl,_⟩,_⟩
    exact ⟨rfl,rfl⟩
  · rintro ⟨rfl,rfl⟩
    exact ⟨"*",⟨rfl,rfl,rfl⟩,.inl rfl⟩

theorem setting_exact (valkey : Bool) : (setting valkey).Exact := by
  intro userId domain role
  have one : Relation.TransGen (Link sampleRules domain) userId role ↔ userId = "ana" ∧ role = "editor" := by
    constructor
    · intro reached
      induction reached with
      | single linked => exact link_sample.mp linked
      | tail _ linked ih =>
        obtain ⟨rfl,rfl⟩ := link_sample.mp linked
        exact absurd ih.2 (by decide)
    · intro both
      exact .single (link_sample.mpr both)
  show role ∈ (if userId = "ana" then ["editor"] else []) ↔ _
  rw [show (setting valkey).rules = sampleRules from rfl,one]
  split <;> simp_all

def readAll (userId : String) : Question := ⟨"tenant",userId,"orders","read:all"⟩
def allOfRead (userId : String) : Question := ⟨"tenant",userId,"orders:read","all"⟩
def readAny (userId : String) : Question := ⟨"tenant",userId,"*","read"⟩
def fine : Faults := ⟨false,false,false,false⟩

-- "orders" + "read:all" and "orders:read" + "all" are filed under one key; the rule
-- ('*', 'read') answers for the object named '*'.
theorem casbinAllows_not_matcher :
    ((emit (step (setting false)) (State.initial 0) [.call (readAll "ana") 0 fine,.call (allOfRead "ana") 0 fine]).2 =
        [(readAll "ana",true),(allOfRead "ana",true)] ∧ ¬m sampleRules (allOfRead "ana")) ∧
      (emit (step (setting false)) (State.initial 0) [.call (readAny "ana") 0 fine]).2 = [(readAny "ana",false)] ∧
        m sampleRules (readAny "ana") := by
  refine ⟨⟨by decide +kernel,?_⟩,by decide +kernel,?_⟩
  · rintro ⟨rule,member,⟨⟨sub,own,reached⟩,_⟩,object,_⟩
    have held : sub = "ana" ∨ sub = "editor" := by
      rcases (reaches_exact (setting_exact false)).mp reached with rfl | implied
      · exact .inl rfl
      · exact .inr (List.mem_singleton.mp implied)
    simp only [sampleRules,List.mem_cons,List.not_mem_nil,or_false] at member
    rcases member with rfl | rfl | rfl
    · exact absurd object (by decide)
    · cases Option.some.inj own
      exact absurd held (by decide)
    · exact absurd object (by decide)
  · exact ⟨["editor","*","*","read"],by decide,
      ⟨⟨"editor",rfl,.single (link_sample.mpr ⟨rfl,rfl⟩)⟩,.inl rfl⟩,.inl rfl,.inl rfl⟩

def twoUsers : List Action :=
  [.call (readAll "ana") 0 fine,.call (readAll "ben") 0 fine,.call (readAll "ana") 0 fine]

theorem casbinAllows_is_matcher_twoUsers :
    (emit (step (setting true)) (State.initial 0) twoUsers).2 =
        [(readAll "ana",true),(readAll "ben",false),(readAll "ana",true)] ∧
      ∀ answer ∈ (emit (step (setting true)) (State.initial 0) twoUsers).2, answer.2 = true ↔ m sampleRules answer.1 := by
  refine ⟨by decide +kernel,casbinAllows_is_matcher (setting_exact true) 0 twoUsers ?_ ?_⟩
  · intro question member
    have resource : question.resource = "orders" ∧ question.action = "read:all" := by
      simp only [twoUsers,asked,List.mem_cons,List.not_mem_nil,or_false] at member
      rcases member with rfl | rfl | rfl <;> exact ⟨rfl,rfl⟩
    refine ⟨fun any => absurd (resource.1.symm.trans any) (by decide),fun rule inside _ obj act object held same => ?_⟩
    rw [resource.1,resource.2] at same ⊢
    simp only [setting,sampleRules,List.mem_cons,List.not_mem_nil,or_false] at inside
    rcases inside with rfl | rfl | rfl <;> cases Option.some.inj object <;> cases Option.some.inj held
    · exact ⟨rfl,rfl⟩
    · exact absurd same (by decide +kernel)
    · exact absurd same (by decide +kernel)
  · intro first inside second member
    have users : ∀ question ∈ asked twoUsers, question = readAll "ana" ∨ question = readAll "ben" := by
      simp [twoUsers,asked]
    rcases users first inside with rfl | rfl <;> rcases users second member with rfl | rfl
    · exact ⟨fun _ => ⟨rfl,rfl⟩,fun _ => ⟨⟨rfl,rfl⟩,rfl,.inl rfl⟩⟩
    · exact ⟨fun same => absurd same (by decide +kernel),fun same => absurd same (by decide +kernel)⟩
    · exact ⟨fun same => absurd same (by decide +kernel),fun same => absurd same (by decide +kernel)⟩
    · exact ⟨fun _ => ⟨rfl,rfl⟩,fun _ => ⟨⟨rfl,rfl⟩,rfl,.inl rfl⟩⟩

end

end Zveltio.PolicyFastPath

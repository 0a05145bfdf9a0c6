import Mathlib.Data.List.TakeWhile
import Zveltio.Sockets
import Zveltio.QueryFilters
namespace Zveltio.RealtimeDoors
open Tables Sockets
open IpText (Text)
open Binary64 (Number)
open QueryFilters (Json entries)

local instance lawfulText : LawfulBEq Text := inferInstance

-- What a field of a record holds: a scalar of JSON, or an object of the engine's own (a list, a Date).
inductive Held where
  | null
  | bool (value : Bool)
  | number (value : Number)
  | text (value : String)
  | object (shown : Json)

abbrev Record := Table String Held

-- What admits gives: an answer, or a promise; none is one that rejects or is out of time.
inductive Verdict where
  | now (ok : Bool)
  | later (outcome : Option Bool)

def Verdict.admitted : Verdict → Bool
  | .now ok => ok
  | .later outcome => outcome = some true

structure ReadScope where
  altersRestrict : Bool
  admits : Record → Verdict
  shape : Record → Record

-- What the doors ask for a user of a tenant; none is a lookup that throws.
structure World (User : Type u) where
  checkAccess : Option Text → User → Text → Option Bool
  readScope : Option Text → User → Text → Option ReadScope
  socketIsSchemaAdmin : Option Text → User → Option Bool
  mayHearEverything : Option Text → User → Option Bool
  parse : String → Option Json

def inOrder (verdict : Verdict) (send : List α) : List α := if verdict.admitted then send else []

structure WsEvent where
  collection : Text
  event : Text
  data : Record

section
variable {User : Type u} (world : World User)

def socketMaySubscribe (conn : WSConnection User ReadScope) (name : Text) : WSConnection User ReadScope × Bool :=
  if name = SCHEMA_CHANNEL then (conn,world.socketIsSchemaAdmin conn.tenantId conn.user = some true)
  else if world.checkAccess conn.tenantId conn.user name = some true then
    match world.readScope conn.tenantId conn.user name with
    | none => (conn,false)
    | some scope => ({conn with access := conn.access.set name scope},!scope.altersRestrict)
  else (conn,false)

-- One channel of a subscribe message, and whether it is among the allowed.
def subscribe (registry : Registry User ReadScope) (connId channel : Text) : Registry User ReadScope × Bool :=
  match registry.connections.get connId with
  | none => (registry,false)
  | some conn =>
    if channel = ['*'] ∨ base channel = [] then (registry,false)
    else
      let (asked,canRead) := socketMaySubscribe world conn (base channel)
      if canRead then
        (⟨registry.connections.set connId {asked with subscriptions := add asked.subscriptions channel},
          indexSubscription registry.subscriptionIndex channel connId⟩,true)
      else ({registry with connections := registry.connections.set connId asked},false)

end

section
variable {User : Type u}

def specificChannel (collection event : Text) : Text := collection ++ ':'::event

def wildcardChannel (collection : Text) : Text := collection ++ [':','*']

def deliver (conn : WSConnection User ReadScope) (collection event : Text) (data : Record) (tenantId : Option Text) : List WsEvent :=
  if conn.tenantId ≠ tenantId then []
  else match conn.access.get collection with
    | none => []
    | some scope => inOrder (scope.admits data) [⟨collection,event,scope.shape data⟩]

def fanOut (registry : Registry User ReadScope) (collection event : Text) (data : Record) (tenantId : Option Text) :
    List (Text × Text) → List Text → List (Text × WsEvent) × List (Text × Text)
  | [], _ => ([],[])
  | (channel,connId)::rest, sent =>
    if connId ∈ sent then fanOut registry collection event data tenantId rest sent
    else
      let later := fanOut registry collection event data tenantId rest (connId::sent)
      match registry.connections.get connId with
      | none => (later.1,(channel,connId)::later.2)
      | some conn => ((deliver conn collection event data tenantId).map (connId,·) ++ later.1,later.2)

def broadcastEvent (registry : Registry User ReadScope) (collection event : Text) (data : Record) (tenantId : Option Text) :
    Registry User ReadScope × List (Text × WsEvent) :=
  let visits := [collection,wildcardChannel collection,specificChannel collection event].flatMap fun channel =>
    ((registry.subscriptionIndex.get channel).getD []).map (channel,·)
  let (sends,stale) := fanOut registry collection event data tenantId visits []
  ({registry with subscriptionIndex := stale.foldl (fun index entry => unindexSubscription index entry.1 entry.2) registry.subscriptionIndex},sends)

end

-- A member of ?filter= as the stream keeps it.
inductive FilterOp where
  | eq | neq | inList
  deriving DecidableEq

structure SubscriptionFilter where
  field : String
  op : FilterOp
  value : Json

-- ===: an object is the same as no other, and undefined as nothing of JSON.
def strictEqual : Option Held → Json → Bool
  | some .null,.null => true
  | some (.bool one),.bool other => one = other
  | some (.number (.finite one)),.number (.finite other) => one = other
  | some (.number (.infinite one)),.number (.infinite other) => one = other
  | some (.text one),.text other => one = other
  | _,_ => false

def includes (value : Json) (held : Option Held) : Bool := match value with
  | .list items => items.any (strictEqual held)
  | _ => false

def SubscriptionFilter.holds (filter : SubscriptionFilter) (visible : Record) : Bool :=
  let held := visible.get filter.field
  match filter.op with
  | .eq => strictEqual held filter.value
  | .neq => !strictEqual held filter.value
  | .inList => includes filter.value held

def filterOp (op : String) : Option FilterOp :=
  if op = "eq" then some .eq else if op = "neq" then some .neq else if op = "in" then some .inList else none

-- A loop that ends at the first error.
def collect (step : α → Except String (List β)) : List α → Except String (List β)
  | [] => .ok []
  | item::rest => (step item).bind fun found => (collect step rest).map (found ++ ·)

def fieldFilters (entry : String × Json) : Except String (List SubscriptionFilter) :=
  let (field,value) := entry
  match value with
  | .list _ => .error s!"Filter on '{field}' is a list; use \x7b\"in\": [...]\x7d"
  | .object ops => collect (fun (op,operand) => match filterOp op with
      | none => .error s!"Filter operator '{op}' on '{field}' is not supported on a stream (eq, neq, in)"
      | some known => .ok [⟨field,known,operand⟩]) (entries ops)
  | scalar => .ok [⟨field,.eq,scalar⟩]

def parseSubFilters (parse : String → Option Json) (raw : Option String) : Except String (List SubscriptionFilter) :=
  match raw.filter (· ≠ "") with
  | none => .ok []
  | some text => match parse text with
    | some (.object members) => collect fieldFilters (entries members)
    | _ => .error "Malformed filter: 'filter' must be a JSON object"

structure StreamSub (User : Type u) where
  user : User
  tenantId : Option Text
  collections : List Text
  recordId : Option String
  filters : List SubscriptionFilter
  access : Table Text ReadScope

structure SseEvent where
  collection : Text
  event : Text
  data : Record

inductive Refusal where
  | badRequest (error : String)
  | forbidden (denied : List Text)
  | failed

section
variable {User : Type u} (world : World User) (tenantId : Option Text) (user : User)

-- /^[a-zA-Z0-9_]+$/
def named (name : Text) : Bool := name ≠ [] && name.all fun char => char.isAlphanum || char = '_'

-- ?collection= split at its commas
def rawCollections (param : Option Text) : List Text := ((param.getD []).splitOn ',').filter (· ≠ [])

def readable (channel : Text) : Bool := named (base channel) && world.checkAccess tenantId user (base channel) = some true

def resolveAccess : List Text → Table Text ReadScope → Option (Table Text ReadScope)
  | [],access => some access
  | channel::rest,access =>
    (world.readScope tenantId user (base channel)).bind fun scope => resolveAccess rest (access.set (base channel) scope)

def restricts (access : Table Text ReadScope) (channel : Text) : Bool := (access.get (base channel)).any ReadScope.altersRestrict

def openCollections (param : Option Text) : Except Refusal (List Text × Table Text ReadScope) :=
  let raw := rawCollections param
  if raw = [] ∧ world.mayHearEverything tenantId user ≠ some true then .error (.forbidden [])
  else
    let collections := raw.filter (readable world tenantId user)
    let denied := raw.filter fun channel => !readable world tenantId user channel
    if collections = [] ∧ raw ≠ [] then .error (.forbidden denied)
    else match resolveAccess world tenantId user collections [] with
      | none => .error .failed
      | some access =>
        let kept := collections.filter fun channel => !restricts access channel
        let restricted := access.flatMap fun (name,scope) => if scope.altersRestrict then (collections.filter (base · = name)).reverse else []
        if kept = [] ∧ raw ≠ [] then .error (.forbidden (denied ++ restricted))
        else .ok (kept,access.filter fun entry => !entry.2.altersRestrict)

def openStream (collection : Option Text) (recordId filter : Option String) : Except Refusal (StreamSub User) :=
  match parseSubFilters world.parse filter with
  | .error error => .error (.badRequest error)
  | .ok filters => (openCollections world tenantId user collection).map fun (collections,access) =>
    ⟨user,tenantId,collections,recordId.filter (· ≠ ""),filters,access⟩

end

section
variable {User : Type u} (world : World User)

def isRecord (recordId : Option String) (record : Record) : Bool := match recordId with
  | none => true
  | some wanted => strictEqual (record.get "id") (.text wanted)

def matchesSub (sub : StreamSub User) (collection : Text) (record : Record) : Bool :=
  if sub.collections ≠ [] ∧ collection ∉ sub.collections then false else isRecord sub.recordId record

def matchesFilters (sub : StreamSub User) (visible : Record) : Bool := sub.filters.all fun filter => filter.holds visible

def write (sub : StreamSub User) (collection event : Text) (record : Record) (scope : ReadScope) : List SseEvent :=
  let visible := scope.shape record
  if matchesFilters sub visible then [⟨collection,event,visible⟩] else []

def deliverTo (sub : StreamSub User) (collection event : Text) (record : Record) (tenantId : Option Text) : List SseEvent :=
  if sub.tenantId ≠ tenantId then []
  else if !matchesSub sub collection record then []
  else match sub.access.get collection with
    | some scope => inOrder (scope.admits record) (write sub collection event record scope)
    | none =>
      -- The wildcard stream asks for its gate at the event; a lookup that fails drops it.
      if sub.collections = [] then match world.readScope sub.tenantId sub.user collection with
        | none => []
        | some scope => inOrder (scope.admits record) (write sub collection event record scope)
      else []

def broadcastDataEvent (connections : List (StreamSub User)) (collection event : Text) (record : Record) (tenantId : Option Text) :
    List (Nat × SseEvent) :=
  connections.zipIdx.flatMap fun (sub,place) => (deliverTo world sub collection event record tenantId).map (place,·)

end

-- The events a channel asks for: all of its collection, or those of its suffix.
def suffix (channel : Text) : Option Text := match channel.dropWhile (· ≠ ':') with
  | [] => none
  | _::rest => some rest

def Asked (channel collection event : Text) : Prop :=
  base channel = collection ∧ ∀ rest, suffix channel = some rest → rest = ['*'] ∨ rest = event

structure Expected (tenantId : Option Text) (channel : Text) (scope : ReadScope) (collection event : Text) (record : Record)
    (eventTenant : Option Text) : Prop where
  tenant : tenantId = eventTenant
  asked : Asked channel collection event
  admitted : (scope.admits record).admitted = true

-- What the condition of a filter says of a field.
def Meets (held : Option Held) (op : String) (operand : Json) : Prop :=
  (op = "eq" → strictEqual held operand = true) ∧ (op = "neq" → strictEqual held operand = false) ∧
    (op = "in" → ∃ items, operand = .list items ∧ ∃ item ∈ items, strictEqual held item = true)

def States (field : Option Held) : Json → Prop
  | .object ops => ∀ op operand, (entries ops).get op = some operand → Meets field op operand
  | value => Meets field "eq" value

def Satisfies (parse : String → Option Json) (raw : Option String) (visible : Record) : Prop :=
  ∀ text members, raw = some text → text ≠ "" → parse text = some (.object members) →
    ∀ field value, (entries members).get field = some value → States (visible.get field) value

structure Wanted (parse : String → Option Json) (recordId filter : Option String) (scope : ReadScope) (record : Record) : Prop where
  id : ∀ wanted, recordId = some wanted → wanted ≠ "" → record.get "id" = some (.text wanted)
  fields : Satisfies parse filter (scope.shape record)

def Delivers (expected : Prop) (sends : List α) (message : α) : Prop := (expected → sends = [message]) ∧ (¬expected → sends = [])

def sentTo {κ : Type u} [DecidableEq κ] (place : κ) (sends : List (κ × α)) : List α := (sends.filter fun entry => entry.1 = place).map Prod.snd

section
variable {User : Type u} {world : World User} {registry after : Registry User ReadScope} {connId channel collection event : Text} {record : Record}
  {tenantId eventTenant : Option Text} {user : User} {conn : WSConnection User ReadScope} {scope : ReadScope}

theorem base_clear (clear : ':' ∉ channel) : base channel = channel ∧ suffix channel = none := by
  have all : ∀ char ∈ channel, decide (char ≠ ':') = true := fun char member => decide_eq_true fun same => clear (same ▸ member)
  refine ⟨List.takeWhile_eq_self_iff.mpr all,?_⟩
  rw [suffix,List.dropWhile_eq_nil_iff.mpr all]

theorem base_cut (clear : ':' ∉ collection) (rest : Text) :
    base (collection ++ ':'::rest) = collection ∧ suffix (collection ++ ':'::rest) = some rest := by
  have all : ∀ char ∈ collection, decide (char ≠ ':') = true := fun char member => decide_eq_true fun same => clear (same ▸ member)
  refine ⟨?_,?_⟩
  · rw [base,List.takeWhile_append_of_pos all,List.takeWhile_cons_of_neg (by simp),List.append_nil]
  · rw [suffix,List.dropWhile_append_of_pos all,List.dropWhile_cons_of_neg (by simp)]

theorem base_parts (channel : Text) : ':' ∉ base channel ∧
    (suffix channel = none ∧ channel = base channel ∨ ∃ rest, suffix channel = some rest ∧ channel = base channel ++ ':'::rest) := by
  refine ⟨fun member => by simpa using List.mem_takeWhile_imp member,?_⟩
  have whole : base channel ++ channel.dropWhile (· ≠ ':') = channel := List.takeWhile_append_dropWhile
  cases left : channel.dropWhile (· ≠ ':') with
  | nil =>
    rw [left,List.append_nil] at whole
    exact .inl ⟨by rw [suffix,left],whole.symm⟩
  | cons head rest =>
    have colon : head = ':' := by
      have stop := List.head?_dropWhile_not (fun char => decide (char ≠ ':')) channel
      rw [left] at stop
      simpa using stop
    rw [left,colon] at whole
    exact .inr ⟨rest,by rw [suffix,left],whole.symm⟩

theorem asked_exact : Asked channel collection event ↔
    ':' ∉ collection ∧ channel ∈ [collection,wildcardChannel collection,specificChannel collection event] := by
  constructor
  · rintro ⟨own,rests⟩
    obtain ⟨clear,⟨_,same⟩ | ⟨rest,cut,same⟩⟩ := base_parts channel
    · rw [own] at clear same
      exact ⟨clear,List.mem_cons.mpr (.inl same)⟩
    · rw [own] at clear same
      refine ⟨clear,List.mem_cons_of_mem _ ?_⟩
      rcases rests rest cut with wild | one
      · exact List.mem_cons.mpr (.inl (same.trans (by rw [wild]; rfl)))
      · exact List.mem_cons_of_mem _ (List.mem_singleton.mpr (same.trans (by rw [one]; rfl)))
  · rintro ⟨clear,member⟩
    rcases List.mem_cons.mp member with rfl | member
    · exact ⟨(base_clear clear).1,fun rest cut => by rw [(base_clear clear).2] at cut; cases cut⟩
    rcases List.mem_cons.mp member with rfl | member
    · refine ⟨(base_cut clear _).1,fun rest cut => .inl ?_⟩
      exact Option.some.inj (cut.symm.trans (base_cut clear _).2)
    · rw [List.mem_singleton.mp member]
      refine ⟨(base_cut clear _).1,fun rest cut => .inr ?_⟩
      exact Option.some.inj (cut.symm.trans (base_cut clear _).2)

theorem sentTo_append {κ : Type u} [DecidableEq κ] (place : κ) (first second : List (κ × α)) :
    sentTo place (first ++ second) = sentTo place first ++ sentTo place second := by
  rw [sentTo,List.filter_append,List.map_append]
  rfl

theorem sentTo_own {κ : Type u} [DecidableEq κ] (place : κ) (items : List α) : sentTo place (items.map (place,·)) = items := by
  induction items with
  | nil => rfl
  | cons item rest ih =>
    rw [sentTo,List.map_cons,List.filter_cons_of_pos (by simp),List.map_cons]
    exact congrArg (item::·) ih

theorem sentTo_other {κ : Type u} [DecidableEq κ] {place other : κ} (apart : other ≠ place) (items : List α) :
    sentTo place (items.map (other,·)) = [] := by
  have none : ∀ entry ∈ items.map (other,·), ¬decide (entry.1 = place) = true := by
    intro entry member
    obtain ⟨item,_,rfl⟩ := List.mem_map.mp member
    simpa using apart
  rw [sentTo,List.filter_eq_nil_iff.mpr none,List.map_nil]

theorem fanOut_exact (found : registry.connections.get connId = some conn) (visits : List (Text × Text)) (sent : List Text) :
    sentTo connId (fanOut registry collection event record eventTenant visits sent).1 =
      if connId ∈ visits.map Prod.snd ∧ connId ∉ sent then deliver conn collection event record eventTenant else [] := by
  induction visits generalizing sent with
  | nil => rfl
  | cons visit rest ih =>
    obtain ⟨listed,id⟩ := visit
    rw [fanOut]
    by_cases seen : id ∈ sent
    · rw [if_pos seen,ih]
      by_cases same : connId = id
      · rw [if_neg fun both => both.2 (same ▸ seen),if_neg fun both => both.2 (same ▸ seen)]
      · refine if_congr (and_congr_left' ?_) rfl rfl
        rw [List.map_cons,List.mem_cons]
        exact (or_iff_right same).symm
    · rw [if_neg seen]
      by_cases same : connId = id
      · subst same
        rw [found]
        have later := ih (connId::sent)
        rw [if_neg fun both => both.2 (List.mem_cons_self ..)] at later
        rw [if_pos ⟨List.mem_cons_self ..,seen⟩]
        show sentTo connId ((deliver conn collection event record eventTenant).map (connId,·) ++ _) = _
        rw [sentTo_append,sentTo_own,later,List.append_nil]
      · have later := ih (id::sent)
        have share : sentTo connId (fanOut registry collection event record eventTenant rest (id::sent)).1 =
            if connId ∈ ((listed,id)::rest).map Prod.snd ∧ connId ∉ sent then deliver conn collection event record eventTenant else [] := by
          rw [later]
          refine if_congr (and_congr ?_ ?_) rfl rfl
          · rw [List.map_cons,List.mem_cons]
            exact (or_iff_right same).symm
          · rw [List.mem_cons,not_or]
            exact and_iff_right same
        split
        · exact share
        · show sentTo connId (List.map (id,·) _ ++ _) = _
          rw [sentTo_append,sentTo_other (Ne.symm same),List.nil_append,share]

theorem broadcast_exact (found : after.connections.get connId = some conn)
    (listed : ∀ other, Listed after.subscriptionIndex other connId ↔ other = channel) :
    sentTo connId (broadcastEvent after collection event record eventTenant).2 =
      if channel ∈ [collection,wildcardChannel collection,specificChannel collection event] then deliver conn collection event record eventTenant
      else [] := by
  rw [broadcastEvent]
  dsimp only
  rw [fanOut_exact found]
  refine if_congr ?_ rfl rfl
  rw [and_iff_left List.not_mem_nil,List.mem_map]
  constructor
  · rintro ⟨visit,member,same⟩
    obtain ⟨one,inside,there⟩ := List.mem_flatMap.mp member
    obtain ⟨id,held,rfl⟩ := List.mem_map.mp there
    subst same
    exact (listed one).mp held ▸ inside
  · intro inside
    have held : connId ∈ (after.subscriptionIndex.get channel).getD [] := (listed channel).mpr rfl
    exact ⟨(channel,connId),List.mem_flatMap.mpr ⟨channel,inside,List.mem_map.mpr ⟨connId,held,rfl⟩⟩,rfl⟩

theorem subscribed_exact (fresh : ∀ other, ¬Listed registry.subscriptionIndex other connId) (apart : base channel ≠ SCHEMA_CHANNEL)
    (gate : world.readScope tenantId user (base channel) = some scope)
    (accepted : subscribe world (registry.opened connId user tenantId) connId channel = (after,true)) :
    after.connections.get connId = some ⟨user,tenantId,[channel],[(base channel,scope)]⟩ ∧
      ∀ other, Listed after.subscriptionIndex other connId ↔ other = channel := by
  have here : (registry.opened connId user tenantId).connections.get connId = some ⟨user,tenantId,[],[]⟩ := by
    rw [Registry.opened,get_set,if_pos rfl]
  rw [subscribe,here] at accepted
  dsimp only at accepted
  split at accepted
  · cases accepted
  · rw [socketMaySubscribe,if_neg apart] at accepted
    split at accepted
    · rw [gate] at accepted
      dsimp only at accepted
      split at accepted
      · cases accepted
        refine ⟨?_,fun other => ?_⟩
        · rw [get_set,if_pos rfl]
          rfl
        · rw [listed_index,and_iff_left rfl]
          exact or_iff_left (fresh other)
      · cases accepted
    · dsimp only at accepted
      rw [if_neg Bool.false_ne_true] at accepted
      cases accepted

theorem deliver_expected (scope : ReadScope) : Delivers (Expected tenantId channel scope collection event record eventTenant)
    (if channel ∈ [collection,wildcardChannel collection,specificChannel collection event] then
      deliver ⟨user,tenantId,[channel],[(base channel,scope)]⟩ collection event record eventTenant else [])
    ⟨collection,event,scope.shape record⟩ := by
  constructor
  · rintro ⟨rfl,asked,admitted⟩
    rw [if_pos (asked_exact.mp asked).2,deliver,if_neg fun apart => apart rfl,get_cons,if_pos asked.1]
    exact if_pos admitted
  · intro unexpected
    split
    · next inside =>
      rw [deliver]
      split
      · rfl
      · next same =>
        rw [get_cons]
        by_cases own : base channel = collection
        · rw [if_pos own]
          have clear : ':' ∉ collection := own ▸ (base_parts channel).1
          refine if_neg fun admitted => unexpected ⟨not_not.mp same,asked_exact.mpr ⟨clear,inside⟩,admitted⟩
        · rw [if_neg own]
          rfl
    · rfl

theorem collect_exact {step : γ → Except String (List β)} {items : List γ} (done : collect step items = .ok results) :
    (∀ item ∈ items, ∃ found, step item = .ok found) ∧
      ∀ result, result ∈ results ↔ ∃ item ∈ items, ∃ found, step item = .ok found ∧ result ∈ found := by
  induction items generalizing results with
  | nil =>
    cases done
    exact ⟨fun _ wrong => absurd wrong List.not_mem_nil,fun _ => ⟨fun wrong => absurd wrong List.not_mem_nil,
      fun ⟨_,wrong,_⟩ => absurd wrong List.not_mem_nil⟩⟩
  | cons item rest ih =>
    rw [collect] at done
    cases one : step item with
    | error => rw [one] at done; cases done
    | ok found =>
      cases more : collect step rest with
      | error => rw [one,more] at done; cases done
      | ok others =>
        rw [one,more] at done
        cases done
        obtain ⟨each,members⟩ := ih more
        refine ⟨fun other member => ?_,fun result => ?_⟩
        · rcases List.mem_cons.mp member with rfl | member
          · exact ⟨found,one⟩
          · exact each other member
        · rw [List.mem_append,members]
          constructor
          · rintro (here | ⟨other,member,held⟩)
            · exact ⟨item,List.mem_cons_self ..,found,one,here⟩
            · exact ⟨other,List.mem_cons_of_mem _ member,held⟩
          · rintro ⟨other,member,held⟩
            rcases List.mem_cons.mp member with rfl | member
            · obtain ⟨same,ok,here⟩ := held
              cases Except.ok.inj (one.symm.trans ok)
              exact .inl here
            · exact .inr ⟨other,member,held⟩

theorem collected_holds {step : γ → Except String (List SubscriptionFilter)} {items : List γ} {states : γ → Prop} {visible : Record}
    (done : collect step items = .ok filters)
    (each : ∀ item ∈ items, ∀ found, step item = .ok found → ((∀ filter ∈ found, filter.holds visible = true) ↔ states item)) :
    (∀ filter ∈ filters, filter.holds visible = true) ↔ ∀ item ∈ items, states item := by
  obtain ⟨ok,members⟩ := collect_exact done
  constructor
  · intro holds item member
    obtain ⟨found,one⟩ := ok item member
    exact (each item member found one).mp fun filter inside => holds filter ((members filter).mpr ⟨item,member,found,one,inside⟩)
  · intro all filter member
    obtain ⟨item,inside,found,one,held⟩ := (members filter).mp member
    exact (each item inside found one).mpr (all item inside) filter held

theorem includes_exact (held : Option Held) (value : Json) :
    includes value held = true ↔ ∃ items, value = .list items ∧ ∃ item ∈ items, strictEqual held item = true := by
  constructor
  · intro found
    cases value with
    | list items => exact ⟨items,rfl,List.any_eq_true.mp found⟩
    | _ => cases found
  · rintro ⟨items,rfl,held⟩
    exact List.any_eq_true.mpr held

theorem filterOp_meets (known : filterOp op = some kind) (field : String) (operand : Json) (visible : Record) :
    SubscriptionFilter.holds ⟨field,kind,operand⟩ visible = true ↔ Meets (visible.get field) op operand := by
  unfold filterOp at known
  split at known
  · next same =>
    cases known
    subst same
    exact ⟨fun held => ⟨fun _ => held,fun wrong => absurd wrong (by decide),fun wrong => absurd wrong (by decide)⟩,fun meets => meets.1 rfl⟩
  split at known
  · next same =>
    cases known
    subst same
    exact ⟨fun held => ⟨fun wrong => absurd wrong (by decide),fun _ => Bool.not_eq_true' _ ▸ held,fun wrong => absurd wrong (by decide)⟩,
      fun meets => (Bool.not_eq_true' _).mpr (meets.2.1 rfl)⟩
  split at known
  · next same =>
    cases known
    subst same
    refine ⟨fun held => ⟨fun wrong => absurd wrong (by decide),fun wrong => absurd wrong (by decide),fun _ => (includes_exact _ _).mp held⟩,
      fun meets => (includes_exact _ _).mpr (meets.2.2 rfl)⟩
  · cases known

theorem entries_all (members : List (String × Json)) (states : String → Json → Prop) :
    (∀ entry ∈ entries members, states entry.1 entry.2) ↔ ∀ key value, (entries members).get key = some value → states key value := by
  constructor
  · exact fun all key value found => all (key,value) (get_mem found)
  · exact fun all entry member => all entry.1 entry.2 (get_of_mem (nodup_ofEntries members) member)

theorem fieldFilters_states {visible : Record} (entry : String × Json) {found : List SubscriptionFilter} (done : fieldFilters entry = .ok found) :
    (∀ filter ∈ found, filter.holds visible = true) ↔ States (visible.get entry.1) entry.2 := by
  obtain ⟨field,value⟩ := entry
  have scalar {value : Json} : (∀ filter ∈ [(⟨field,.eq,value⟩ : SubscriptionFilter)], filter.holds visible = true) ↔
      Meets (visible.get field) "eq" value := by
    rw [List.forall_mem_singleton]
    exact filterOp_meets rfl field value visible
  cases value with
  | list items => cases done
  | object ops =>
    rw [States,← entries_all ops fun op operand => Meets (visible.get field) op operand]
    refine collected_holds done fun operator _ found one => ?_
    dsimp only at one
    cases known : filterOp operator.1 with
    | none => rw [known] at one; cases one
    | some kind =>
      rw [known] at one
      cases one
      rw [List.forall_mem_singleton]
      exact filterOp_meets known field operator.2 visible
  | null => cases done; exact scalar
  | bool => cases done; exact scalar
  | number => cases done; exact scalar
  | text => cases done; exact scalar

theorem subFilters_exact {parse : String → Option Json} {raw : Option String} {visible : Record} (parsed : parseSubFilters parse raw = .ok filters) :
    (filters.all fun filter => filter.holds visible) = true ↔ Satisfies parse raw visible := by
  rw [List.all_eq_true,parseSubFilters] at *
  cases given : raw.filter (· ≠ "") with
  | none =>
    rw [given] at parsed
    cases parsed
    refine ⟨fun _ text members some nonempty => ?_,fun _ _ wrong => absurd wrong List.not_mem_nil⟩
    rw [some,Option.filter_some,if_pos (decide_eq_true nonempty)] at given
    cases given
  | some text =>
    obtain ⟨same,nonempty⟩ := Option.filter_eq_some_iff.mp given
    rw [given] at parsed
    dsimp only at parsed
    split at parsed
    · next members read =>
      rw [collected_holds parsed fun entry _ _ => fieldFilters_states entry,entries_all members fun field value => States (visible.get field) value]
      constructor
      · intro states other others held _ found
        cases Option.some.inj (same.symm.trans held)
        cases Option.some.inj (read.symm.trans found)
        exact states
      · exact fun satisfied => satisfied text members same (of_decide_eq_true nonempty) read
    · cases parsed

theorem resolveAccess_exact {channels : List Text} {access resolved : Table Text ReadScope}
    (done : resolveAccess world tenantId user channels access = some resolved) (distinct : (Table.keys access).Nodup) :
    (Table.keys resolved).Nodup ∧ ∀ name, Table.get resolved name =
      if name ∈ channels.map base then world.readScope tenantId user name else Table.get access name := by
  induction channels generalizing access with
  | nil =>
    cases done
    exact ⟨distinct,fun _ => (if_neg List.not_mem_nil).symm⟩
  | cons channel rest ih =>
    obtain ⟨scope,found,later⟩ := Option.bind_eq_some_iff.mp done
    obtain ⟨apart,each⟩ := ih later (nodup_set distinct)
    refine ⟨apart,fun name => ?_⟩
    rw [each,get_set,List.map_cons]
    by_cases here : name = base channel
    · have inside : name ∈ base channel::rest.map base := List.mem_cons.mpr (.inl here)
      rw [if_pos here,if_pos inside,here,found]
      exact ite_self _
    · rw [if_neg here]
      refine if_congr ?_ rfl rfl
      rw [List.mem_cons]
      exact (or_iff_right here).symm

theorem openCollections_exact {param : Option Text} {kept : List Text} {access : Table Text ReadScope}
    (done : openCollections world tenantId user param = .ok (kept,access)) :
    (∀ channel ∈ kept, named (base channel) = true ∧ access.get (base channel) = world.readScope tenantId user (base channel)) ∧
      ∀ name scope, access.get name = some scope → ':' ∉ name := by
  rw [openCollections] at done
  split at done
  · cases done
  dsimp only at done
  split at done
  · cases done
  split at done
  · cases done
  · next resolved found =>
    split at done
    · cases done
    · cases done
      obtain ⟨distinct,each⟩ := resolveAccess_exact found List.nodup_nil
      have filtered := get_filter distinct fun scope => !scope.altersRestrict
      refine ⟨fun channel member => ?_,fun name scope held => ?_⟩
      · obtain ⟨inside,free⟩ := List.mem_filter.mp member
        have readable := (List.mem_filter.mp inside).2
        have here : Table.get resolved (base channel) = world.readScope tenantId user (base channel) := by
          rw [each,if_pos (List.mem_map_of_mem inside)]
        refine ⟨(Bool.and_eq_true_iff.mp readable).1,?_⟩
        rw [filtered,here]
        rw [restricts,here] at free
        cases gate : world.readScope tenantId user (base channel) with
        | none => rfl
        | some scope =>
          rw [gate] at free
          exact if_pos free
      · rw [filtered] at held
        have there := (Option.filter_eq_some_iff.mp held).1
        rw [each] at there
        split at there
        · next inside =>
          obtain ⟨channel,_,rfl⟩ := List.mem_map.mp inside
          exact (base_parts channel).1
        · cases there

theorem openStream_exact {param : Option Text} {recordId filter : Option String} {sub : StreamSub User}
    (opened : openStream world tenantId user param recordId filter = .ok sub) :
    ∃ filters access, parseSubFilters world.parse filter = .ok filters ∧ openCollections world tenantId user param = .ok (sub.collections,access) ∧
      sub = ⟨user,tenantId,sub.collections,recordId.filter (· ≠ ""),filters,access⟩ := by
  rw [openStream] at opened
  cases parsed : parseSubFilters world.parse filter with
  | error => rw [parsed] at opened; cases opened
  | ok filters =>
    rw [parsed] at opened
    cases found : openCollections world tenantId user param with
    | error => rw [found] at opened; cases opened
    | ok result =>
      rw [found] at opened
      cases opened
      exact ⟨filters,result.2,rfl,rfl,rfl⟩

theorem strictEqual_text (held : Option Held) (wanted : String) : strictEqual held (.text wanted) = true ↔ held = some (.text wanted) := by
  cases held with
  | none => exact ⟨fun wrong => (nomatch wrong),fun wrong => (nomatch wrong)⟩
  | some value =>
    cases value with
    | text held => rw [strictEqual,decide_eq_true_eq,Option.some.injEq,Held.text.injEq]
    | _ => simp [strictEqual]

theorem isRecord_exact (recordId : Option String) (record : Record) : isRecord (recordId.filter (· ≠ "")) record = true ↔
    ∀ wanted, recordId = some wanted → wanted ≠ "" → record.get "id" = some (.text wanted) := by
  cases recordId with
  | none => exact ⟨fun _ _ wrong => (nomatch wrong),fun _ => rfl⟩
  | some wanted =>
    by_cases empty : wanted = ""
    · subst empty
      exact ⟨fun _ _ same apart => absurd (Option.some.inj same).symm apart,fun _ => rfl⟩
    · rw [Option.filter_some,if_pos (decide_eq_true empty),isRecord,strictEqual_text]
      constructor
      · intro same other given _
        exact Option.some.inj given ▸ same
      · exact fun each => each wanted rfl empty

theorem deliverTo_expected {param : Option Text} {recordId filter : Option String} {sub : StreamSub User}
    (opened : openStream world tenantId user param recordId filter = .ok sub) (only : sub.collections = [channel])
    (gate : world.readScope tenantId user (base channel) = some scope) :
    Delivers (Expected tenantId channel scope collection event record eventTenant ∧ channel = collection ∧
      Wanted world.parse recordId filter scope record)
      (deliverTo world sub collection event record eventTenant) ⟨collection,event,scope.shape record⟩ := by
  obtain ⟨filters,access,parsed,found,same⟩ := openStream_exact opened
  obtain ⟨gates,clear⟩ := openCollections_exact found
  rw [only] at gates same
  have here : access.get (base channel) = some scope := (gates channel (List.mem_singleton.mpr rfl)).2.trans gate
  have heard : matchesSub sub collection record = true ↔ channel = collection ∧ isRecord (recordId.filter (· ≠ "")) record = true := by
    rw [same,matchesSub]
    by_cases named : channel = collection
    · rw [if_neg fun both => both.2 (named ▸ List.mem_singleton.mpr rfl),and_iff_right named]
    · rw [if_pos ⟨List.cons_ne_nil _ _,fun member => named (List.mem_singleton.mp member).symm⟩]
      exact ⟨fun wrong => absurd wrong Bool.false_ne_true,fun both => absurd both.1 named⟩
  have visible : matchesFilters sub (scope.shape record) = true ↔ Satisfies world.parse filter (scope.shape record) := by
    rw [same]
    exact subFilters_exact parsed
  constructor
  · rintro ⟨⟨rfl,asked,admitted⟩,rfl,wanted⟩
    have found : sub.access.get channel = some scope := by
      rw [same]
      exact asked.1 ▸ here
    rw [deliverTo,if_neg (by rw [same]; exact fun apart => apart rfl),heard.mpr ⟨rfl,(isRecord_exact ..).mpr wanted.id⟩,found]
    show inOrder _ (write ..) = _
    rw [inOrder,if_pos admitted,write,if_pos (visible.mpr wanted.fields)]
  · intro unexpected
    rw [deliverTo]
    split
    · rfl
    · next tenant =>
      split
      · rfl
      · next hears =>
        obtain ⟨rfl,identified⟩ := heard.mp (by simpa using hears)
        split
        · next held scopeHere =>
          rw [same] at scopeHere
          have plain := base_clear (clear channel held scopeHere)
          rw [plain.1,scopeHere] at here
          cases here
          rw [inOrder]
          split
          · next admitted =>
            rw [write]
            refine if_neg fun fields => unexpected ⟨⟨?_,⟨plain.1,fun rest cut => ?_⟩,admitted⟩,rfl,(isRecord_exact ..).mp identified,visible.mp fields⟩
            · rw [same] at tenant
              exact not_not.mp tenant
            · rw [plain.2] at cut
              cases cut
          · rfl
        · exact if_neg (by rw [only]; exact List.cons_ne_nil _ _)

theorem sentTo_zip {κ : Type u} {γ : Type v} (sends : κ → List γ) (items : List κ) (start place : Nat) :
    sentTo place ((items.zipIdx start).flatMap fun (item,here) => (sends item).map (here,·)) =
      if start ≤ place then ((items[place - start]?).map sends).getD [] else [] := by
  induction items generalizing start with
  | nil => split <;> rfl
  | cons item rest ih =>
    rw [List.zipIdx_cons,List.flatMap_cons,sentTo_append,ih]
    dsimp only
    rcases Nat.lt_trichotomy start place with before | rfl | after
    · rw [sentTo_other (Nat.ne_of_lt before),if_pos (Nat.succ_le_of_lt before),if_pos (Nat.le_of_lt before),List.nil_append]
      obtain ⟨gap,rfl⟩ := Nat.exists_eq_add_of_lt before
      rw [show start + gap + 1 - (start + 1) = gap by omega,show start + gap + 1 - start = gap + 1 by omega,List.getElem?_cons_succ]
    · rw [sentTo_own,if_neg (Nat.not_succ_le_self start),if_pos (Nat.le_refl _),Nat.sub_self,List.append_nil]
      rfl
    · rw [sentTo_other (Nat.ne_of_gt after),if_neg (by omega),if_neg (Nat.not_le_of_lt after),List.append_nil]

theorem broadcastData_exact {connections : List (StreamSub User)} {place : Nat} {sub : StreamSub User} (found : connections[place]? = some sub) :
    sentTo place (broadcastDataEvent world connections collection event record eventTenant) =
      deliverTo world sub collection event record eventTenant := by
  rw [broadcastDataEvent,sentTo_zip (fun sub => deliverTo world sub collection event record eventTenant),if_pos (Nat.zero_le _),Nat.sub_zero,found]
  rfl

-- What the doors are to do with an event: a socket and a stream of one channel, and a stream narrowed by a record and a filter.
structure DoorsAgree (world : World User) (registry : Registry User ReadScope) (connId : Text) (streams : List (StreamSub User))
    (place narrow : Nat) (tenantId : Option Text) (channel : Text) (scope : ReadScope) (recordId filter : Option String)
    (collection event : Text) (record : Record) (eventTenant : Option Text) : Prop where
  socket : Delivers (Expected tenantId channel scope collection event record eventTenant)
    (sentTo connId (broadcastEvent registry collection event record eventTenant).2) ⟨collection,event,scope.shape record⟩
  stream : Delivers (Expected tenantId channel scope collection event record eventTenant)
    (sentTo place (broadcastDataEvent world streams collection event record eventTenant)) ⟨collection,event,scope.shape record⟩
  narrowed : Delivers (Expected tenantId channel scope collection event record eventTenant ∧ Wanted world.parse recordId filter scope record)
    (sentTo narrow (broadcastDataEvent world streams collection event record eventTenant)) ⟨collection,event,scope.shape record⟩

theorem nothing_wanted (parse : String → Option Json) (scope : ReadScope) (record : Record) : Wanted parse none none scope record :=
  ⟨fun _ wrong => (nomatch wrong),fun _ _ wrong => (nomatch wrong)⟩

theorem delivers_imp {expected other : Prop} {sends : List α} {message : α} (delivers : Delivers expected sends message) (same : expected ↔ other) :
    Delivers other sends message := ⟨fun held => delivers.1 (same.mpr held),fun none => delivers.2 fun held => none (same.mp held)⟩

-- The doors agree on an event just where it is not one that the channel asks for by its suffix.
theorem realtime_agrees {streams : List (StreamSub User)} {plain narrow : StreamSub User} {place narrowPlace : Nat} {recordId filter : Option String}
    (fresh : ∀ other, ¬Listed registry.subscriptionIndex other connId)
    (gate : world.readScope tenantId user (base channel) = some scope)
    (subscribed : subscribe world (registry.opened connId user tenantId) connId channel = (after,true))
    (streamed : openStream world tenantId user (some channel) none none = .ok plain) (accepted : plain.collections = [channel])
    (narrowed : openStream world tenantId user (some channel) recordId filter = .ok narrow)
    (first : streams[place]? = some plain) (second : streams[narrowPlace]? = some narrow) :
    DoorsAgree world after connId streams place narrowPlace tenantId channel scope recordId filter collection event record eventTenant ↔
      (Expected tenantId channel scope collection event record eventTenant → channel = collection) := by
  obtain ⟨_,_,_,found,_⟩ := openStream_exact streamed
  obtain ⟨_,_,_,again,_⟩ := openStream_exact narrowed
  have only : narrow.collections = [channel] := by
    rw [← accepted]
    exact (Prod.mk.inj (Except.ok.inj (again.symm.trans found))).1
  have apart : base channel ≠ SCHEMA_CHANNEL := by
    have valid := ((openCollections_exact found).1 channel (accepted ▸ List.mem_singleton.mpr rfl)).1
    rintro same
    rw [same] at valid
    revert valid
    decide
  obtain ⟨here,listed⟩ := subscribed_exact fresh apart gate subscribed
  have stream : Delivers (Expected tenantId channel scope collection event record eventTenant ∧ channel = collection ∧
      Wanted world.parse none none scope record) (deliverTo world plain collection event record eventTenant) ⟨collection,event,scope.shape record⟩ :=
    deliverTo_expected streamed accepted gate
  constructor
  · intro agree expected
    have sent := agree.stream.1 expected
    rw [broadcastData_exact first] at sent
    refine Decidable.byContradiction fun other => ?_
    rw [stream.2 fun heard => other heard.2.1] at sent
    cases sent
  · intro bare
    refine ⟨?_,?_,?_⟩
    · rw [broadcast_exact here listed]
      exact deliver_expected scope
    · rw [broadcastData_exact first]
      exact delivers_imp stream ⟨And.left,fun expected => ⟨expected,bare expected,nothing_wanted ..⟩⟩
    · rw [broadcastData_exact second]
      exact delivers_imp (deliverTo_expected narrowed only gate) ⟨fun all => ⟨all.1,all.2.2⟩,fun both => ⟨both.1,bare both.1,both.2⟩⟩

end

def everything : ReadScope := ⟨false,fun _ => .now true,fun record => record⟩

def admitting : World Unit :=
  ⟨fun _ _ _ => some true,fun _ _ _ => some everything,fun _ _ => some false,fun _ _ => some false,fun _ => some (.object [("status",.text "open")])⟩

def orders : Text := ['o','r','d','e','r','s']

def inserts : Text := ['i','n','s','e','r','t']

def nobody : Registry Unit ReadScope := ⟨[],[]⟩

def listening (channel : Text) : Registry Unit ReadScope := (subscribe admitting (nobody.opened ['w'] () none) ['w'] channel).1

def streaming (channel : Text) (recordId : Option String) (filters : List SubscriptionFilter) : StreamSub Unit :=
  ⟨(),none,[channel],recordId,filters,[(base channel,everything)]⟩

def narrowed : StreamSub Unit := streaming orders (some "1") [⟨"status",.eq,.text "open"⟩]

def opened : Record := [("id",.text "1"),("status",.text "open")]

theorem nobody_listed (other : Text) : ¬Listed nobody.subscriptionIndex other ['w'] := List.not_mem_nil

theorem realtime_agrees_bare : DoorsAgree admitting (listening orders) ['w'] [streaming orders none [],narrowed] 0 1 none orders everything
    (some "1") (some "filter") orders inserts opened none :=
  (realtime_agrees nobody_listed rfl rfl rfl rfl rfl rfl rfl).mpr fun _ => rfl

-- Both doors accept the channel, and the stream stays silent.
theorem suffix_silent : subscribe admitting (nobody.opened ['w'] () none) ['w'] (specificChannel orders inserts) =
      (listening (specificChannel orders inserts),true) ∧
    openStream admitting none () (some (specificChannel orders inserts)) none none = .ok (streaming (specificChannel orders inserts) none []) ∧
    ¬DoorsAgree admitting (listening (specificChannel orders inserts)) ['w'] [streaming (specificChannel orders inserts) none []] 0 0 none
      (specificChannel orders inserts) everything none none orders inserts [] none := by
  refine ⟨rfl,rfl,fun agree => ?_⟩
  have written := agree.stream.1 ⟨rfl,⟨rfl,fun rest cut => .inr (Option.some.inj cut).symm⟩,rfl⟩
  cases written

end Zveltio.RealtimeDoors

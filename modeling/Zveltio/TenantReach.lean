import Mathlib.Order.Defs.LinearOrder
import Zveltio.IpText
import Zveltio.RowRuleDoor
import Zveltio.TenantTree
namespace Zveltio.TenantReach
open IpText (Text joined splitOn_joined)
open RowRuleDoor (Uuid readBytes uuidText uuidColumn uuid_reads hexValue_exact hexChar_digit)
open ParentChains TenantTree

local instance lawfulText : LawfulBEq Text := inferInstance

local instance sixteen : NeZero 16 := inferInstance

instance : DecidableEq Uuid := inferInstanceAs (DecidableEq {digits : List (Fin 16) // digits.length = 32})

-- The casts to and of uuid: braces may stand around one, and it prints with four hyphens.
def uuidBare (text : Text) : Option Uuid := uuidColumn.cast (String.ofList text)

def uuidIn (text : Text) : Option Uuid :=
  match text with
  | '{'::rest => if rest.getLast? = some '}' then uuidBare rest.dropLast else none
  | _ => uuidBare text

def uuidOut (id : Uuid) : Text := (uuidText id.1).toList

def nil : Uuid := ⟨List.replicate 32 0,rfl⟩

def DEFAULT_TENANT_ID : Uuid := ⟨List.replicate 31 0 ++ [1],rfl⟩

def NO_UNITS : Text := uuidOut nil

inductive ReadScope where
  | self | subtree | list | org
  deriving DecidableEq

-- A row of zv_tenant_users, with the constraint on its list.
structure Membership (τ : Type) where
  tenant_id : Uuid
  user_id : Text
  read_scope : ReadScope
  scope_list : Option (List (Option Uuid))
  valid_from : τ
  valid_to : Option τ
  scope_list_check : (read_scope = .list ∧ ∃ units, scope_list = some units ∧ 0 < units.length) ∨ (read_scope ≠ .list ∧ scope_list = none)

-- zv_tenants, a tree of no more than 64 levels, and zv_tenant_users. The ids are the default tenant's and those of gen_random_uuid: none is nil.
structure Tables (τ : Type) where
  tenants : List Uuid
  parents : Uuid → Option (Option Uuid)
  memberships : List (Membership τ)
  listed : Lists tenants parents
  bounded : Bounded (parentOf parents) 64
  random : nil ∉ tenants
  placed : ∀ row ∈ memberships, row.tenant_id ∈ tenants
  unique : memberships.Pairwise fun one other => ¬(one.tenant_id = other.tenant_id ∧ one.user_id = other.user_id)

-- The settings of a session that the sets of units are read from.
structure Settings where
  current_tenant : Text
  visible_tenants : Text
  fail_closed_tenant : Text

structure TenantScope where
  visible : Option (List Text)

section
variable {τ : Type} [LinearOrder τ]

def Membership.inForce (now : τ) (row : Membership τ) : Bool :=
  row.valid_from ≤ now && (match row.valid_to with
    | none => true
    | some valid_to => now < valid_to)

def ReadScope.rank : ReadScope → Nat
  | .org => 3
  | .subtree => 2
  | .list => 1
  | .self => 0

def Tables.rows (tables : Tables τ) (user : Text) (tenant : Uuid) : List (Membership τ) :=
  tables.memberships.filter fun row => row.user_id = user ∧ row.tenant_id = tenant

-- First occurrence wins, so the own unit stays first.
def ownFirst (p_tenant : Text) (v_set : List (Option Text)) : Text :=
  joined ',' ((some p_tenant::v_set).filterMap fun id => id.filter (· ≠ [])).eraseDups

-- none where p_tenant is no uuid; the inner none is NULL.
def zveltio_tenant_reach (tables : Tables τ) (now : τ) (p_user p_tenant : Text) : Option (Option Text) :=
  (uuidIn p_tenant).map fun v_tenant =>
    let rows := tables.rows p_user v_tenant
    let live := rows.filter (Membership.inForce now)
    let v_widest : Nat := (live.map fun row => row.read_scope.rank).foldl max 0
    if rows.length = 0 then none
    else if live.length = 0 then some NO_UNITS
    else if v_widest = 3 then some (joined ',' (tables.tenants.map uuidOut))
    else if v_widest = 2 then
      some (ownFirst p_tenant ((zveltio_tenant_subtree tables.tenants tables.parents v_tenant).map fun id => some (uuidOut id)))
    else if v_widest = 1 then
      some (ownFirst p_tenant ((live.filter fun row => row.read_scope = .list).flatMap fun row => (row.scope_list.getD []).map fun id => id.map uuidOut))
    else some p_tenant

def scopeFromRow (visible_csv : Option Text) : TenantScope := ⟨visible_csv.map fun csv => (csv.splitOn ',').filter (· ≠ [])⟩

def isSingleUnitReach (scope : Option TenantScope) (tenantId : Text) : Bool :=
  match scope with
  | none => true
  | some scope => match scope.visible with
    | none => true
    | some visible => visible.length = 1 && visible[0]? = some tenantId

-- The settings of the transaction, and whether its reach is this tenant alone. god: isGodUser has said yes.
def withTenantIsolation (tables : Tables τ) (now : τ) (session : Settings) (tenantId : Text) (userId : Option Text) (god : Bool) : Option (Settings × Bool) :=
  let named := userId.filter (· ≠ [])
  let reach := match named with
    | none => some none
    | some user => if god then some (some (joined ',' (tables.tenants.map uuidOut))) else zveltio_tenant_reach tables now user tenantId
  reach.map fun visible_csv =>
    ({session with current_tenant := tenantId,visible_tenants := visible_csv.getD []},
      isSingleUnitReach (if named.isSome then some (scopeFromRow visible_csv) else none) tenantId)

def zveltio_visible_tenants (settings : Settings) : Option (List Uuid) :=
  if settings.visible_tenants ≠ [] then (settings.visible_tenants.splitOn ',').mapM uuidIn
  else if settings.current_tenant ≠ [] then (uuidIn settings.current_tenant).map ([·])
  else if (if settings.fail_closed_tenant = [] then ['o','f','f'] else settings.fail_closed_tenant).map Char.toLower ∈
      [['o','n'],['t','r','u','e'],['1']] then some []
  else some [DEFAULT_TENANT_ID]

-- The units that the read_scope of an assignment names.
def Membership.reaches (tables : Tables τ) (row : Membership τ) (unit : Uuid) : Prop := match row.read_scope with
  | .self => unit = row.tenant_id
  | .subtree => ∃ levels, up (parentOf tables.parents) levels unit = some row.tenant_id
  | .list => ∃ units, row.scope_list = some units ∧ some unit ∈ units
  | .org => unit ∈ tables.tenants

end

section
variable {text part p_tenant : Text} {id tenant unit : Uuid}

theorem readBytes_clear {left : Nat} {digits : List (Fin 16)} (read : readBytes left text = some digits) : ',' ∉ text := by
  induction left generalizing text digits with
  | zero =>
    cases text with
    | nil => exact List.not_mem_nil
    | cons char rest => cases read
  | succ left ih =>
    match text,read with
    | high::low::rest,read =>
      simp only [readBytes,bind,Option.bind_eq_some_iff] at read
      obtain ⟨first,one,second,two,later,read,_⟩ := read
      have tail := ih read
      have plain {char : Char} {digit : Fin 16} (known : RowRuleDoor.hexValue char = some digit) : ',' ≠ char := by
        rintro rfl
        cases known
      have whole : ',' ∉ rest := by
        split at tail
        · split at tail
          · exact fun member => (List.mem_cons.mp member).elim (by decide) tail
          · exact tail
        · exact tail
      intro member
      rcases List.mem_cons.mp member with same | member
      · exact plain one same
      · rcases List.mem_cons.mp member with same | member
        · exact plain two same
        · exact whole member

theorem cast_clear (read : uuidBare text = some id) : ',' ∉ text ∧ text ≠ [] := by
  obtain ⟨digits,read,_⟩ := Option.bind_eq_some_iff.mp read
  rw [String.toList_ofList] at read
  refine ⟨readBytes_clear read,?_⟩
  rintro rfl
  cases read

theorem uuidIn_clear (read : uuidIn text = some id) : ',' ∉ text ∧ text ≠ [] := by
  unfold uuidIn at read
  split at read
  case h_1 rest =>
    refine ⟨?_,List.cons_ne_nil _ _⟩
    split at read
    case isTrue last =>
      have clear := (cast_clear read).1
      obtain ⟨front,same⟩ := List.getLast?_eq_some_iff.mp last
      rw [same,List.dropLast_concat] at clear
      rw [same]
      simp [clear]
    case isFalse => cases read
  case h_2 => exact cast_clear read

theorem uuidOut_head : (uuidOut id).head? ≠ some '{' := by
  obtain ⟨digits,long⟩ := id
  cases digits with
  | nil => cases long
  | cons digit rest =>
    have plain : ∀ digit, RowRuleDoor.hexChar digit ≠ '{' := by decide
    simpa [uuidOut,uuidText] using plain digit

theorem uuidIn_out : uuidIn (uuidOut id) = some id := by
  unfold uuidIn
  split
  case h_1 rest same => exact absurd (congrArg List.head? same) uuidOut_head
  case h_2 =>
    have read := uuid_reads id
    rwa [← String.ofList_toList (s := uuidColumn.text id)] at read

theorem mapM_reads {parts : List Text} (read : ∀ part ∈ parts, ∃ id, uuidIn part = some id) :
    ∃ ids, parts.mapM uuidIn = some ids ∧ ∀ id, id ∈ ids ↔ ∃ part ∈ parts, uuidIn part = some id := by
  induction parts with
  | nil => exact ⟨[],rfl,by simp⟩
  | cons part rest ih =>
    obtain ⟨first,same⟩ := read part (List.mem_cons_self ..)
    obtain ⟨ids,later,exact'⟩ := ih fun other member => read other (List.mem_cons_of_mem _ member)
    refine ⟨first::ids,by simp [List.mapM_cons,same,later],fun id => ?_⟩
    simp only [List.mem_cons,exact',exists_eq_or_imp,same,Option.some.injEq]
    exact or_congr_left eq_comm

-- A set of units, spelled as the texts of its units with commas between.
structure Spells (csv : Text) (parts : List Text) (units : Uuid → Prop) : Prop where
  some_part : parts ≠ []
  text : csv = joined ',' parts
  read : ∀ part ∈ parts, ∃ id, uuidIn part = some id
  whole : ∀ id, units id ↔ ∃ part ∈ parts, uuidIn part = some id

section
variable {csv : Text} {parts : List Text} {units : Uuid → Prop}

theorem spells_split (spells : Spells csv parts units) : csv.splitOn ',' = parts := by
  rw [spells.text,splitOn_joined fun part member => ?_,if_neg spells.some_part]
  obtain ⟨_,read⟩ := spells.read part member
  exact (uuidIn_clear read).1

theorem spells_some (spells : Spells csv parts units) : csv ≠ [] := by
  intro empty
  have split := spells_split spells
  rw [empty] at split
  obtain ⟨_,read⟩ := spells.read [] (by rw [← split]; exact List.mem_singleton.mpr rfl)
  exact (uuidIn_clear read).2 rfl

theorem visible_now (spells : Spells csv parts units) (session : Settings) :
    ∃ visible, zveltio_visible_tenants {session with current_tenant := p_tenant,visible_tenants := csv} = some visible ∧ ∀ id, id ∈ visible ↔ units id := by
  obtain ⟨ids,read,found⟩ := mapM_reads spells.read
  refine ⟨ids,?_,fun id => (found id).trans (spells.whole id).symm⟩
  rw [zveltio_visible_tenants,if_pos (spells_some spells),spells_split spells,read]

theorem spells_scope (spells : Spells csv parts units) : (scopeFromRow (some csv)).visible = some parts := by
  simp only [scopeFromRow,Option.map_some,spells_split spells,Option.some.injEq]
  refine List.filter_eq_self.mpr fun part member => ?_
  obtain ⟨_,read⟩ := spells.read part member
  exact decide_eq_true (uuidIn_clear read).2

theorem spells_single (spells : Spells csv parts units) (parsed : uuidIn p_tenant = some tenant)
    (single : isSingleUnitReach (some (scopeFromRow (some csv))) p_tenant = true) (member : units unit) : unit = tenant := by
  simp only [isSingleUnitReach,spells_scope spells,Bool.and_eq_true,decide_eq_true_eq] at single
  obtain ⟨part,inside,read⟩ := (spells.whole unit).mp member
  obtain ⟨only,same⟩ := List.length_eq_one_iff.mp single.1
  rw [same] at single inside
  cases List.mem_singleton.mp inside
  cases Option.some.inj single.2
  exact Option.some.inj (read.symm.trans parsed)

end

theorem spells_own (parsed : uuidIn p_tenant = some tenant) : Spells p_tenant [p_tenant] (· = tenant) :=
  ⟨List.cons_ne_nil _ _,by simp [joined],fun part member => ⟨tenant,List.mem_singleton.mp member ▸ parsed⟩,fun id => by simp [parsed,eq_comm]⟩

theorem spells_all {list : List Uuid} (some_unit : list ≠ []) : Spells (joined ',' (list.map uuidOut)) (list.map uuidOut) (· ∈ list) := by
  refine ⟨fun empty => some_unit (List.map_eq_nil_iff.mp empty),rfl,fun part member => ?_,fun id => by simp [uuidIn_out]⟩
  obtain ⟨id,_,rfl⟩ := List.mem_map.mp member
  exact ⟨id,uuidIn_out⟩

theorem spells_list (parsed : uuidIn p_tenant = some tenant) (units : List (Option Uuid)) :
    ∃ parts, Spells (ownFirst p_tenant (units.map fun id => id.map uuidOut)) parts fun unit => unit = tenant ∨ some unit ∈ units := by
  have member (part : Text) : part ∈ ((some p_tenant::units.map fun id => id.map uuidOut).filterMap fun id => id.filter (· ≠ [])).eraseDups ↔
      part = p_tenant ∨ ∃ id, some id ∈ units ∧ uuidOut id = part := by
    have solid (id : Uuid) : uuidOut id ≠ [] := (uuidIn_clear uuidIn_out).2
    simp only [List.mem_eraseDups,List.mem_filterMap,List.mem_cons,List.mem_map,Option.filter_eq_some_iff,decide_eq_true_eq]
    constructor
    · rintro ⟨_,own | ⟨id,inside,rfl⟩,same,_⟩
      · exact .inl (Option.some.inj (same.symm.trans own))
      · obtain ⟨unit,rfl,out⟩ := Option.map_eq_some_iff.mp same
        exact .inr ⟨unit,inside,out⟩
    · rintro (rfl | ⟨id,inside,rfl⟩)
      · exact ⟨some part,.inl rfl,rfl,(uuidIn_clear parsed).2⟩
      · exact ⟨some (uuidOut id),.inr ⟨some id,inside,rfl⟩,rfl,solid id⟩
  refine ⟨_,?_,rfl,fun part inside => ?_,fun id => ⟨fun either => ?_,fun found => ?_⟩⟩
  · exact List.ne_nil_of_mem ((member p_tenant).mpr (.inl rfl))
  · rcases (member part).mp inside with rfl | ⟨id,_,rfl⟩
    · exact ⟨tenant,parsed⟩
    · exact ⟨id,uuidIn_out⟩
  · rcases either with rfl | inside
    · exact ⟨p_tenant,(member p_tenant).mpr (.inl rfl),parsed⟩
    · exact ⟨uuidOut id,(member _).mpr (.inr ⟨id,inside,rfl⟩),uuidIn_out⟩
  · obtain ⟨part,inside,read⟩ := found
    rcases (member part).mp inside with rfl | ⟨unit,listed,rfl⟩
    · exact .inl (Option.some.inj (read.symm.trans parsed))
    · cases uuidIn_out.symm.trans read
      exact .inr listed

end

section
variable {τ : Type} [LinearOrder τ] {tables : Tables τ} {now : τ} {p_user p_tenant : Text} {tenant : Uuid}

omit [LinearOrder τ] in
theorem rows_single (tables : Tables τ) (p_user : Text) (tenant : Uuid) : tables.rows p_user tenant = [] ∨
    ∃ row, tables.rows p_user tenant = [row] ∧ row.tenant_id = tenant ∧ tenant ∈ tables.tenants := by
  have inside (row : Membership τ) (member : row ∈ tables.rows p_user tenant) : row ∈ tables.memberships ∧ row.user_id = p_user ∧ row.tenant_id = tenant := by
    simpa [Tables.rows] using member
  have apart : (tables.rows p_user tenant).Pairwise fun one other => ¬(one.tenant_id = other.tenant_id ∧ one.user_id = other.user_id) :=
    tables.unique.sublist List.filter_sublist
  cases rows : tables.rows p_user tenant with
  | nil => exact .inl rfl
  | cons row rest =>
    obtain ⟨member,user,here⟩ := inside row (by rw [rows]; exact List.mem_cons_self ..)
    cases rest with
    | nil => exact .inr ⟨row,rfl,here,here ▸ tables.placed row member⟩
    | cons other rest =>
      obtain ⟨_,again,there⟩ := inside other (by rw [rows]; exact List.mem_cons_of_mem _ (List.mem_cons_self ..))
      rw [rows] at apart
      exact absurd ⟨here.trans there.symm,user.trans again.symm⟩ ((List.pairwise_cons.mp apart).1 other (List.mem_cons_self ..))

omit [LinearOrder τ] in
theorem subtree_member (tables : Tables τ) (placed : tenant ∈ tables.tenants) (unit : Uuid) :
    unit ∈ zveltio_tenant_subtree tables.tenants tables.parents tenant ↔ ∃ levels, up (parentOf tables.parents) levels unit = some tenant := by
  have rooted (unit : Uuid) (child : parentOf tables.parents unit ≠ none) : unit ∈ tables.tenants := by
    refine (tables.listed.2 unit).mpr ?_
    rw [Option.isSome_iff_ne_none]
    intro absent
    exact child (by rw [parentOf,absent]; rfl)
  rw [zveltio_tenant_subtree,mem_descendants rooted tables.bounded]
  refine ⟨fun both => both.2.2,fun reached => ⟨?_,placed,reached⟩⟩
  obtain ⟨levels,reached⟩ := reached
  cases levels with
  | zero =>
    cases reached
    exact placed
  | succ levels =>
    refine rooted unit fun wrong => ?_
    simp only [up,wrong] at reached
    cases reached

theorem reach_row (parsed : uuidIn p_tenant = some tenant) {row : Membership τ} (rows : tables.rows p_user tenant = [row]) (here : row.tenant_id = tenant)
    (placed : tenant ∈ tables.tenants) (live : row.inForce now = true) :
    ∃ csv parts, zveltio_tenant_reach tables now p_user p_tenant = some (some csv) ∧
      Spells csv parts fun unit => unit = tenant ∨ row.reaches tables unit := by
  have reach : zveltio_tenant_reach tables now p_user p_tenant = some (
      if row.read_scope.rank = 3 then some (joined ',' (tables.tenants.map uuidOut))
      else if row.read_scope.rank = 2 then
        some (ownFirst p_tenant ((zveltio_tenant_subtree tables.tenants tables.parents tenant).map fun id => some (uuidOut id)))
      else if row.read_scope.rank = 1 then
        some (ownFirst p_tenant (([row].filter fun row => row.read_scope = .list).flatMap fun row => (row.scope_list.getD []).map fun id => id.map uuidOut))
      else some p_tenant) := by
    simp only [zveltio_tenant_reach,parsed,rows,Option.map_some,List.filter_cons_of_pos live,List.filter_nil]
    simp
  rw [reach]
  cases scope : row.read_scope with
  | self =>
    refine ⟨p_tenant,[p_tenant],rfl,?_⟩
    simpa only [Membership.reaches,scope,here,or_self] using spells_own parsed
  | subtree =>
    obtain ⟨parts,spells⟩ := spells_list parsed ((zveltio_tenant_subtree tables.tenants tables.parents tenant).map some)
    rw [List.map_map] at spells
    refine ⟨_,parts,rfl,spells.some_part,spells.text,spells.read,fun id => Iff.trans ?_ (spells.whole id)⟩
    simp only [Membership.reaches,scope,here,List.mem_map,Option.some.injEq,exists_eq_right,subtree_member tables placed]
  | list =>
    obtain ⟨parts,spells⟩ := spells_list parsed (row.scope_list.getD [])
    have alone : ([row].filter fun row => row.read_scope = .list).flatMap (fun row => (row.scope_list.getD []).map fun id => id.map uuidOut) =
        (row.scope_list.getD []).map fun id => id.map uuidOut := by simp [scope]
    rw [alone]
    refine ⟨_,parts,rfl,spells.some_part,spells.text,spells.read,fun id => Iff.trans ?_ (spells.whole id)⟩
    obtain ⟨units,listed,_⟩ : ∃ units, row.scope_list = some units ∧ 0 < units.length := row.scope_list_check.elim (fun both => both.2) fun both => absurd scope both.1
    simp only [Membership.reaches,scope,listed,Option.getD_some,Option.some.injEq,exists_eq_left']
  | org =>
    have spells := spells_all (List.ne_nil_of_mem placed)
    refine ⟨_,_,rfl,spells.some_part,spells.text,spells.read,fun id => Iff.trans ?_ (spells.whole id)⟩
    simp only [Membership.reaches,scope]
    exact or_iff_right_of_imp fun same => same ▸ placed

theorem isolation_published {session : Settings} {csv : Option Text} (named : p_user ≠ []) (reach : zveltio_tenant_reach tables now p_user p_tenant = some csv) :
    withTenantIsolation tables now session p_tenant (some p_user) false =
      some ({session with current_tenant := p_tenant,visible_tenants := csv.getD []},isSingleUnitReach (some (scopeFromRow csv)) p_tenant) := by
  have given : (some p_user).filter (· ≠ []) = some p_user := by simp [named]
  simp only [withTenantIsolation,given,reach]
  rfl

-- What a request sees: its tenant alone, nothing, or its tenant and the union of its assignments in force.
structure Reached (tables : Tables τ) (now : τ) (p_user : Text) (tenant : Uuid) (visible : List Uuid) (single : Bool) : Prop where
  unassigned : tables.rows p_user tenant = [] → ∀ unit, unit ∈ visible ↔ unit = tenant
  lapsed : tables.rows p_user tenant ≠ [] → (∀ row ∈ tables.rows p_user tenant, row.inForce now = false) → ∀ unit ∈ tables.tenants, unit ∉ visible
  live : (∃ row ∈ tables.rows p_user tenant, row.inForce now = true) →
    ∀ unit, unit ∈ visible ↔ unit = tenant ∨ ∃ row ∈ tables.rows p_user tenant, row.inForce now = true ∧ row.reaches tables unit
  alone : single = true → ∀ unit ∈ visible, unit = tenant

theorem unassigned_reached (parsed : uuidIn p_tenant = some tenant) (rows : tables.rows p_user tenant = []) (session : Settings) :
    zveltio_tenant_reach tables now p_user p_tenant = some none ∧
    zveltio_visible_tenants {session with current_tenant := p_tenant,visible_tenants := []} = some [tenant] ∧
    Reached tables now p_user tenant [tenant] true := by
  refine ⟨by simp [zveltio_tenant_reach,parsed,rows],?_,fun _ unit => List.mem_singleton,fun some_row => absurd rows some_row,fun found => ?_,
    fun _ unit => List.mem_singleton.mp⟩
  · have given := (uuidIn_clear parsed).2
    simp [zveltio_visible_tenants,given,parsed]
  · obtain ⟨row,member,_⟩ := found
    rw [rows] at member
    cases member

theorem lapsed_reached (parsed : uuidIn p_tenant = some tenant) {row : Membership τ} (rows : tables.rows p_user tenant = [row]) (lapsed : row.inForce now = false)
    (session : Settings) : zveltio_tenant_reach tables now p_user p_tenant = some (some NO_UNITS) ∧
    ∃ visible, zveltio_visible_tenants {session with current_tenant := p_tenant,visible_tenants := NO_UNITS} = some visible ∧
      Reached tables now p_user tenant visible (isSingleUnitReach (some (scopeFromRow (some NO_UNITS))) p_tenant) := by
  have spells : Spells NO_UNITS [NO_UNITS] (· = nil) := spells_own uuidIn_out
  obtain ⟨visible,read,found⟩ := visible_now spells session
  refine ⟨by simp [zveltio_tenant_reach,parsed,rows,lapsed],visible,read,fun none => ?_,fun _ _ unit placed inside => ?_,fun live => ?_,fun single unit inside => ?_⟩
  · rw [rows] at none
    cases none
  · exact tables.random ((found unit).mp inside ▸ placed)
  · obtain ⟨other,member,live⟩ := live
    rw [rows] at member
    cases List.mem_singleton.mp member
    cases lapsed.symm.trans live
  · exact spells_single spells parsed single ((found unit).mp inside)

theorem reach_union (tables : Tables τ) (now : τ) (session : Settings) (named : p_user ≠ []) (parsed : uuidIn p_tenant = some tenant) :
    ∃ settings single visible, withTenantIsolation tables now session p_tenant (some p_user) false = some (settings,single) ∧
      zveltio_visible_tenants settings = some visible ∧ Reached tables now p_user tenant visible single := by
  rcases rows_single tables p_user tenant with rows | ⟨row,rows,here,placed⟩
  · obtain ⟨reach,read,reached⟩ := unassigned_reached parsed rows session
    exact ⟨_,_,_,isolation_published named reach,read,reached⟩
  · cases live : row.inForce now with
    | false =>
      obtain ⟨reach,visible,read,reached⟩ := lapsed_reached parsed rows live session
      exact ⟨_,_,visible,isolation_published named reach,read,reached⟩
    | true =>
      obtain ⟨csv,parts,reach,spells⟩ := reach_row parsed rows here placed live
      obtain ⟨visible,read,found⟩ := visible_now spells session
      refine ⟨_,_,visible,isolation_published named reach,read,fun none => ?_,fun _ lapsed => ?_,fun _ unit => ?_,fun single unit inside => ?_⟩
      · rw [rows] at none
        cases none
      · cases live.symm.trans (lapsed row (by rw [rows]; exact List.mem_singleton.mpr rfl))
      · simp only [found,rows,List.mem_singleton,exists_eq_left,live,true_and]
      · exact spells_single spells parsed single ((found unit).mp inside)

end

def second : Uuid := ⟨List.replicate 31 0 ++ [2],rfl⟩

def roots (id : Uuid) : Option (Option Uuid) := if id ∈ [DEFAULT_TENANT_ID,second] then some none else none

def assignment : Membership Int := ⟨DEFAULT_TENANT_ID,['u'],.list,some [some second],0,none,.inl ⟨rfl,_,rfl,Nat.one_pos⟩⟩

-- Two units, and a user who is in the first with a list of the second.
def estate : Tables Int where
  tenants := [DEFAULT_TENANT_ID,second]
  parents := roots
  memberships := [assignment]
  listed := by
    refine ⟨by decide,fun id => ?_⟩
    unfold roots
    split <;> simp [*]
  bounded id := by
    have root : parentOf roots id = none := by
      unfold parentOf roots
      split <;> rfl
    rw [up,root]
    rfl
  random := by decide
  placed row member := by
    rw [List.mem_singleton.mp member]
    exact List.mem_cons_self ..
  unique := List.pairwise_singleton ..

theorem assigned : estate.rows ['u'] DEFAULT_TENANT_ID = [assignment] := rfl

theorem reach_union_estate : ∃ settings single visible,
    withTenantIsolation estate 1 ⟨[],[],[]⟩ (uuidOut DEFAULT_TENANT_ID) (some ['u']) false = some (settings,single) ∧
      zveltio_visible_tenants settings = some visible ∧ DEFAULT_TENANT_ID ∈ visible ∧ second ∈ visible := by
  obtain ⟨settings,single,visible,published,read,reached⟩ := reach_union estate 1 ⟨[],[],[]⟩ (List.cons_ne_nil 'u' [])
    (uuidIn_out : uuidIn (uuidOut DEFAULT_TENANT_ID) = some DEFAULT_TENANT_ID)
  have live := reached.live ⟨assignment,List.mem_cons_self ..,rfl⟩
  exact ⟨settings,single,visible,published,read,(live _).mpr (.inl rfl),
    (live _).mpr (.inr ⟨assignment,List.mem_cons_self ..,rfl,_,rfl,List.mem_cons_self ..⟩)⟩

-- The unit itself is seen though the list does not name it.
theorem list_own : ∃ settings single visible,
    withTenantIsolation estate 1 ⟨[],[],[]⟩ (uuidOut DEFAULT_TENANT_ID) (some ['u']) false = some (settings,single) ∧
      zveltio_visible_tenants settings = some visible ∧ (∃ row ∈ estate.rows ['u'] DEFAULT_TENANT_ID, row.inForce 1 = true) ∧
      ¬∀ unit, unit ∈ visible ↔ ∃ row ∈ estate.rows ['u'] DEFAULT_TENANT_ID, row.inForce 1 = true ∧ row.reaches estate unit := by
  obtain ⟨csv,parts,reach,spells⟩ : ∃ csv parts, zveltio_tenant_reach estate 1 ['u'] (uuidOut DEFAULT_TENANT_ID) = some (some csv) ∧
      Spells csv parts fun unit => unit = DEFAULT_TENANT_ID ∨ assignment.reaches estate unit :=
    reach_row uuidIn_out assigned rfl (List.mem_cons_self ..) rfl
  obtain ⟨visible,read,found⟩ := visible_now spells ⟨[],[],[]⟩
  refine ⟨_,_,visible,isolation_published (List.cons_ne_nil 'u' []) reach,read,⟨assignment,List.mem_cons_self ..,rfl⟩,fun exact' => ?_⟩
  obtain ⟨row,member,_,named⟩ := (exact' DEFAULT_TENANT_ID).mp ((found _).mpr (.inl rfl))
  rw [assigned] at member
  cases List.mem_singleton.mp member
  obtain ⟨units,same,inside⟩ := named
  cases same
  exact absurd (List.mem_singleton.mp inside) (by decide)

end Zveltio.TenantReach

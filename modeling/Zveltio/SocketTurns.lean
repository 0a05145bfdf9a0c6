import Zveltio.Parties
import Zveltio.Runs
import Zveltio.Sockets
namespace Zveltio.SocketTurns
open Tables Sockets Runs Parties
open IpText (Text)

local instance lawfulText : LawfulBEq Text := inferInstance

-- The two forms of either message.
inductive Message where
  | subscribe (collections : List Text)
  | subscribeChannel (channel : Text)
  | unsubscribe (collections : List Text)
  | unsubscribeChannel (channel : Text)

-- The channels whose permission is awaited, one after the other; the rest of a subscribe is denied at once.
def Message.checks : Message → List Text
  | .subscribe collections => collections.filter fun channel => channel ≠ ['*'] ∧ base channel ≠ []
  | .subscribeChannel channel => if base channel = ['*'] then [] else [channel]
  | _ => []

def Message.removes : Message → List Text
  | .unsubscribe collections => collections
  | .unsubscribeChannel channel => [channel]
  | _ => []

-- A message being handled, before the answer to the check of the first of its channels.
structure Handler where
  connId : Text
  awaiting : List Text

-- opened: every connection there has been; sent: the messages of open connections as they came in.
structure State (User : Type u) (Scope : Type v) where
  registry : Registry User Scope
  opened : List Text
  sent : List (Text × Message)
  handlers : List Handler

inductive Action (User : Type u) where
  | opens (connId : Text) (user : User) (tenantId : Option Text)
  | message (connId : Text) (message : Message)
  | answer (handler : Nat)
  | close (connId : Text)

section
variable {User : Type u} {Scope : Type v} (may : Text → Text → Bool)

def State.start : State User Scope := ⟨⟨[],[]⟩,[],[],[]⟩

def unsubscribe (registry : Registry User Scope) (connId : Text) (conn : WSConnection User Scope) (channels : List Text) : Registry User Scope :=
  ⟨registry.connections.set connId {conn with subscriptions := channels.foldl remove conn.subscriptions},
    unindexAllSubscriptions registry.subscriptionIndex connId channels⟩

-- conn.subscriptions.add and indexSubscription; a conn that cleanupSocket took out is no longer looked at.
def record (registry : Registry User Scope) (connId channel : Text) : Registry User Scope :=
  ⟨match registry.connections.get connId with
    | none => registry.connections
    | some conn => registry.connections.set connId {conn with subscriptions := add conn.subscriptions channel},
    indexSubscription registry.subscriptionIndex channel connId⟩

-- A message runs until it awaits its first check, an answered check until the next; may is what the checks answer.
def step (state : State User Scope) : Action User → Option (State User Scope)
  | .opens connId user tenantId =>
    if connId ∈ state.opened then none
    else some {state with registry := state.registry.opened connId user tenantId,opened := state.opened ++ [connId]}
  | .message connId message => match state.registry.connections.get connId with
    | none => some state
    | some conn => some {state with
        registry := unsubscribe state.registry connId conn message.removes
        sent := state.sent ++ [(connId,message)]
        handlers := state.handlers ++ [⟨connId,message.checks⟩]}
  | .answer place => match state.handlers[place]? with
    | some ⟨connId,channel::rest⟩ =>
      let answered := {state with handlers := state.handlers.modify place fun _ => ⟨connId,rest⟩}
      some (if may connId (base channel) then {answered with registry := record state.registry connId channel} else answered)
    | _ => none
  | .close connId => some {state with registry := cleanupSocket state.registry connId}

-- The messages of a connection handled one after the other: is it subscribed to the channel?
def processed (connId channel : Text) (subscribed : Bool) : List (Text × Message) → Bool
  | [] => subscribed
  | (id,message)::rest =>
    processed connId channel
      (if id ≠ connId then subscribed
        else if channel ∈ message.removes then false
        else subscribed || (channel ∈ message.checks && may connId (base channel))) rest

-- A handler is yet to subscribe the connection to the channel.
def Pending (handlers : List Handler) (connId channel : Text) : Prop :=
  (∃ handler ∈ handlers, handler.connId = connId ∧ channel ∈ handler.awaiting) ∧ may connId (base channel) = true

def Subscribed (registry : Registry User Scope) (connId channel : Text) : Prop :=
  ∃ conn, registry.connections.get connId = some conn ∧ channel ∈ conn.subscriptions

-- No message takes away, and no close leaves behind, what a check that is still out will add.
def Settled (state : State User Scope) : Action User → Prop
  | .message connId message => ∀ channel ∈ message.removes, ¬Pending may state.handlers connId channel
  | .close connId => ∀ channel, ¬Pending may state.handlers connId channel
  | _ => True

structure Sound (state : State User Scope) : Prop where
  known : ∀ connId conn, state.registry.connections.get connId = some conn → connId ∈ state.opened
  handled : ∀ handler ∈ state.handlers, handler.connId ∈ state.opened
  sent : ∀ entry ∈ state.sent, entry.1 ∈ state.opened
  ordered : ∀ connId conn, state.registry.connections.get connId = some conn → ∀ channel,
    processed may connId channel false state.sent = true ↔ channel ∈ conn.subscriptions ∨ Pending may state.handlers connId channel
  closed : ∀ connId, state.registry.connections.get connId = none → ∀ channel, ¬Pending may state.handlers connId channel
  listed : ∀ connId channel, Listed state.registry.subscriptionIndex channel connId ↔ Subscribed state.registry connId channel

section
variable {may : Text → Text → Bool} {state after : State User Scope} {connId channel : Text}

theorem processed_append (sent : List (Text × Message)) (id : Text) (message : Message) (subscribed : Bool) :
    processed may connId channel subscribed (sent ++ [(id,message)]) =
      if id ≠ connId then processed may connId channel subscribed sent
      else if channel ∈ message.removes then false
      else processed may connId channel subscribed sent || (channel ∈ message.checks && may connId (base channel)) := by
  induction sent generalizing subscribed with
  | nil => rfl
  | cons entry rest ih => exact ih _

theorem processed_other (sent : List (Text × Message)) (other : ∀ entry ∈ sent, entry.1 ≠ connId) (subscribed : Bool) :
    processed may connId channel subscribed sent = subscribed := by
  induction sent with
  | nil => rfl
  | cons entry rest ih =>
    rw [processed,if_pos (other entry (List.mem_cons_self ..))]
    exact ih fun entry member => other entry (List.mem_cons_of_mem _ member)

theorem mem_removed (channels subscriptions : List Text) : channel ∈ channels.foldl remove subscriptions ↔
    channel ∈ subscriptions ∧ channel ∉ channels := by
  induction channels generalizing subscriptions with
  | nil => exact (and_iff_left List.not_mem_nil).symm
  | cons first rest ih =>
    rw [List.foldl_cons,ih,mem_remove,List.mem_cons,not_or,and_assoc]

theorem pending_append (handlers : List Handler) (handler : Handler) : Pending may (handlers ++ [handler]) connId channel ↔
    Pending may handlers connId channel ∨
      (handler.connId = connId ∧ channel ∈ handler.awaiting) ∧ may connId (base channel) = true := by
  unfold Pending
  rw [← or_and_right]
  refine and_congr_left' ?_
  constructor
  · rintro ⟨one,member,held⟩
    rcases List.mem_append.mp member with old | new
    · exact .inl ⟨one,old,held⟩
    · exact .inr (List.mem_singleton.mp new ▸ held)
  · rintro (⟨one,member,held⟩ | held)
    · exact ⟨one,List.mem_append_left _ member,held⟩
    · exact ⟨handler,List.mem_append_right _ (List.mem_singleton.mpr rfl),held⟩

theorem pending_answer {handlers : List Handler} {place : Nat} {first : Text} {rest : List Text} {id : Text}
    (found : handlers[place]? = some ⟨id,first::rest⟩) :
    Pending may handlers connId channel ↔ Pending may (handlers.modify place fun _ => ⟨id,rest⟩) connId channel ∨
      (id = connId ∧ channel = first) ∧ may connId (base channel) = true := by
  unfold Pending
  rw [← or_and_right]
  refine and_congr_left' ?_
  constructor
  · rintro ⟨one,member,held⟩
    rcases modify_mem place (fun _ => (⟨id,rest⟩ : Handler)) member with stays | ⟨here,there⟩
    · exact .inl ⟨one,stays,held⟩
    · cases Option.some.inj (found.symm.trans here)
      rcases List.mem_cons.mp held.2 with rfl | later
      · exact .inr ⟨held.1,rfl⟩
      · exact .inl ⟨_,there,held.1,later⟩
  · rintro (⟨one,member,held⟩ | ⟨rfl,rfl⟩)
    · obtain ⟨old,before,rfl | ⟨here,rfl⟩⟩ := mem_modify member
      · exact ⟨one,before,held⟩
      · cases Option.some.inj (found.symm.trans here)
        exact ⟨_,before,held.1,List.mem_cons_of_mem _ held.2⟩
    · exact ⟨_,List.mem_of_getElem? found,rfl,List.mem_cons_self ..⟩

theorem subscribed_set (registry : Registry User Scope) (id : Text) (conn : WSConnection User Scope) (index : Table Text (List Text)) :
    Subscribed ⟨registry.connections.set id conn,index⟩ connId channel ↔
      (connId = id ∧ channel ∈ conn.subscriptions) ∨ (connId ≠ id ∧ Subscribed registry connId channel) := by
  unfold Subscribed
  rw [get_set]
  by_cases same : connId = id
  · rw [if_pos same]
    constructor
    · rintro ⟨other,there,held⟩
      cases Option.some.inj there
      exact .inl ⟨same,held⟩
    · rintro (⟨_,held⟩ | ⟨apart,_⟩)
      · exact ⟨conn,rfl,held⟩
      · exact absurd same apart
  · rw [if_neg same]
    exact ⟨fun held => .inr ⟨same,held⟩,fun either => either.elim (fun both => absurd both.1 same) And.right⟩

theorem subscribed_open {registry : Registry User Scope} {conn : WSConnection User Scope} (found : registry.connections.get connId = some conn) :
    Subscribed registry connId channel ↔ channel ∈ conn.subscriptions := by
  constructor
  · rintro ⟨other,there,held⟩
    cases Option.some.inj (found.symm.trans there)
    exact held
  · exact fun held => ⟨conn,found,held⟩

theorem checks_removes {message : Message} (removed : channel ∈ message.removes) : channel ∉ message.checks := by
  cases message with
  | subscribe => cases removed
  | subscribeChannel => cases removed
  | unsubscribe => exact List.not_mem_nil
  | unsubscribeChannel => exact List.not_mem_nil

theorem start_sound : Sound may (State.start : State User Scope) := by
  refine ⟨fun _ _ wrong => (nomatch wrong),fun _ wrong => absurd wrong List.not_mem_nil,fun _ wrong => absurd wrong List.not_mem_nil,
    fun _ _ wrong => (nomatch wrong),fun _ _ _ pending => ?_,fun _ _ => ⟨fun wrong => absurd wrong List.not_mem_nil,?_⟩⟩
  · obtain ⟨⟨_,wrong,_⟩,_⟩ := pending
    exact absurd wrong List.not_mem_nil
  · rintro ⟨_,wrong,_⟩
    cases wrong

theorem opens_sound (sound : Sound may state) (fresh : connId ∉ state.opened) (user : User) (tenantId : Option Text) :
    Sound may {state with registry := state.registry.opened connId user tenantId,opened := state.opened ++ [connId]} := by
  have absent : state.registry.connections.get connId = none := by
    cases found : state.registry.connections.get connId with
    | none => rfl
    | some conn => exact absurd (sound.known connId conn found) fresh
  have quiet (channel : Text) : ¬Pending may state.handlers connId channel := sound.closed connId absent channel
  have silent : ∀ entry ∈ state.sent, entry.1 ≠ connId := fun entry member same => fresh (same ▸ sound.sent entry member)
  refine ⟨fun id conn found => ?_,fun handler member => List.mem_append_left _ (sound.handled handler member),
    fun entry member => List.mem_append_left _ (sound.sent entry member),fun id conn found channel => ?_,fun id none channel => ?_,fun id channel => ?_⟩
  · rw [Registry.opened,get_set] at found
    split at found
    · next same => exact List.mem_append_right _ (List.mem_singleton.mpr same)
    · exact List.mem_append_left _ (sound.known id conn found)
  · rw [Registry.opened,get_set] at found
    split at found
    · next same =>
      cases found
      subst same
      rw [processed_other state.sent silent]
      exact ⟨fun wrong => absurd wrong Bool.false_ne_true,fun either => either.elim (fun wrong => absurd wrong List.not_mem_nil) fun pending =>
        absurd pending (quiet channel)⟩
    · exact sound.ordered id conn found channel
  · rw [Registry.opened,get_set] at none
    split at none
    · cases none
    · exact sound.closed id none channel
  · refine (sound.listed id channel).trans ?_
    rw [Registry.opened,subscribed_set]
    by_cases same : id = connId
    · subst same
      constructor
      · rintro ⟨conn,found,_⟩
        rw [absent] at found
        cases found
      · intro either
        exact either.elim (fun both => absurd both.2 List.not_mem_nil) fun both => absurd rfl both.1
    · exact ⟨fun held => .inr ⟨same,held⟩,fun either => either.elim (fun both => absurd both.1 same) And.right⟩

theorem message_sound (sound : Sound may state) {conn : WSConnection User Scope} (found : state.registry.connections.get connId = some conn)
    (message : Message) (settled : ∀ channel ∈ message.removes, ¬Pending may state.handlers connId channel) :
    Sound may {state with
      registry := unsubscribe state.registry connId conn message.removes
      sent := state.sent ++ [(connId,message)]
      handlers := state.handlers ++ [⟨connId,message.checks⟩]} := by
  have opened := sound.known connId conn found
  refine ⟨fun id other there => ?_,fun handler member => ?_,fun entry member => ?_,fun id other there channel => ?_,fun id none channel => ?_,
    fun id channel => ?_⟩
  · rw [unsubscribe,get_set] at there
    split at there
    · next same => exact same ▸ opened
    · exact sound.known id other there
  · rcases List.mem_append.mp member with old | new
    · exact sound.handled handler old
    · rw [List.mem_singleton.mp new]
      exact opened
  · rcases List.mem_append.mp member with old | new
    · exact sound.sent entry old
    · rw [List.mem_singleton.mp new]
      exact opened
  · rw [processed_append,pending_append]
    rw [unsubscribe,get_set] at there
    split at there
    · next same =>
      cases there
      subst same
      have before := sound.ordered id conn found channel
      rw [if_neg fun apart => apart rfl,mem_removed,and_iff_right rfl]
      split
      · next removed =>
        have gone := settled channel removed
        have unchecked := checks_removes removed
        refine ⟨fun wrong => absurd wrong Bool.false_ne_true,?_⟩
        rintro (⟨_,stays⟩ | pending | ⟨checked,_⟩)
        · exact absurd removed stays
        · exact absurd pending gone
        · exact absurd checked unchecked
      · next kept =>
        rw [Bool.or_eq_true,before,Bool.and_eq_true,decide_eq_true_eq,and_iff_left kept,or_assoc]
    · next apart =>
      rw [if_pos (Ne.symm apart),sound.ordered id other there channel]
      refine or_congr_right ?_
      exact ⟨.inl,fun either => either.elim (fun held => held) fun both => absurd both.1.1.symm apart⟩
  · rw [unsubscribe,get_set] at none
    split at none
    · cases none
    · next apart =>
      rw [pending_append]
      exact fun either => either.elim (sound.closed id none channel) fun both => apart both.1.1.symm
  · rw [unsubscribe,subscribed_set,listed_unindexAll,sound.listed,mem_removed]
    by_cases same : id = connId
    · subst same
      rw [subscribed_open found]
      simp
    · simp [same]

theorem answer_sound (sound : Sound may state) {place : Nat} {first : Text} {rest : List Text}
    (found : state.handlers[place]? = some ⟨connId,first::rest⟩) :
    Sound may (if may connId (base first) then
        {state with handlers := state.handlers.modify place fun _ => ⟨connId,rest⟩,registry := record state.registry connId first}
      else {state with handlers := state.handlers.modify place fun _ => ⟨connId,rest⟩}) := by
  have split' (id channel : Text) : Pending may state.handlers id channel ↔
      Pending may (state.handlers.modify place fun _ => ⟨connId,rest⟩) id channel ∨
        (connId = id ∧ channel = first) ∧ may id (base channel) = true := pending_answer found
  have handled : ∀ handler ∈ state.handlers.modify place fun _ => ⟨connId,rest⟩, handler.connId ∈ state.opened := by
    intro handler member
    obtain ⟨old,before,rfl | ⟨_,rfl⟩⟩ := mem_modify member
    · exact sound.handled handler before
    · exact sound.handled ⟨connId,first::rest⟩ (List.mem_of_getElem? found)
  have fewer (id channel : Text) (pending : Pending may (state.handlers.modify place fun _ => ⟨connId,rest⟩) id channel) :
      Pending may state.handlers id channel := (split' id channel).mpr (.inl pending)
  split
  · next allowed =>
    have pending : Pending may state.handlers connId first := (split' connId first).mpr (.inr ⟨⟨rfl,rfl⟩,allowed⟩)
    obtain ⟨conn,here⟩ : ∃ conn, state.registry.connections.get connId = some conn := by
      cases there : state.registry.connections.get connId with
      | none => exact absurd pending (sound.closed connId there first)
      | some conn => exact ⟨conn,rfl⟩
    have recorded : record state.registry connId first = ⟨state.registry.connections.set connId {conn with subscriptions := add conn.subscriptions first},
        indexSubscription state.registry.subscriptionIndex first connId⟩ := by
      rw [record,here]
    rw [recorded]
    refine ⟨fun id other there => ?_,handled,sound.sent,fun id other there channel => ?_,fun id none channel => ?_,fun id channel => ?_⟩
    · rw [get_set] at there
      split at there
      · next same => exact same ▸ sound.known connId conn here
      · exact sound.known id other there
    · rw [get_set] at there
      split at there
      · next same =>
        cases there
        subst same
        rw [sound.ordered id conn here channel,split' id channel,mem_add]
        constructor
        · rintro (held | pending | ⟨⟨_,same⟩,_⟩)
          · exact .inl (.inr held)
          · exact .inr pending
          · exact .inl (.inl same)
        · rintro ((rfl | held) | pending)
          · exact .inr (.inr ⟨⟨rfl,rfl⟩,allowed⟩)
          · exact .inl held
          · exact .inr (.inl pending)
      · next apart =>
        rw [sound.ordered id other there channel,split' id channel]
        refine or_congr_right (or_iff_left fun both => apart both.1.1.symm)
    · rw [get_set] at none
      split at none
      · cases none
      · exact fun pending => sound.closed id none channel (fewer id channel pending)
    · rw [listed_index,subscribed_set,sound.listed,mem_add]
      by_cases same : id = connId
      · subst same
        rw [subscribed_open here]
        simp
      · simp [same]
  · next denied =>
    have same (id channel : Text) : Pending may state.handlers id channel ↔
        Pending may (state.handlers.modify place fun _ => ⟨connId,rest⟩) id channel := by
      refine (split' id channel).trans (or_iff_left ?_)
      rintro ⟨⟨rfl,rfl⟩,allowed⟩
      exact denied allowed
    exact ⟨sound.known,handled,sound.sent,fun id conn there channel => (sound.ordered id conn there channel).trans (or_congr_right (same id channel)),
      fun id none channel pending => sound.closed id none channel (fewer id channel pending),sound.listed⟩

theorem close_sound (sound : Sound may state) (settled : ∀ channel, ¬Pending may state.handlers connId channel) :
    Sound may {state with registry := cleanupSocket state.registry connId} := by
  rw [cleanupSocket]
  split
  · exact sound
  · next conn found =>
    refine ⟨fun id other there => ?_,sound.handled,sound.sent,fun id other there channel => ?_,fun id none channel => ?_,fun id channel => ?_⟩
    · rw [get_delete] at there
      split at there
      · cases there
      · exact sound.known id other there
    · rw [get_delete] at there
      split at there
      · cases there
      · exact sound.ordered id other there channel
    · rw [get_delete] at none
      split at none
      · next same => exact same ▸ settled channel
      · exact sound.closed id none channel
    · rw [listed_unindexAll,sound.listed]
      unfold Subscribed
      rw [get_delete]
      by_cases same : id = connId
      · subst same
        rw [found,if_pos rfl]
        simp
      · simp [same]

theorem step_sound : Preserved (step may) (Settled may) (Sound may : State User Scope → Prop) := by
  intro before action after sound settled moved
  cases action with
  | opens connId user tenantId =>
    rw [step] at moved
    split at moved
    · cases moved
    · next fresh =>
      cases moved
      exact opens_sound sound fresh user tenantId
  | message connId message =>
    rw [step] at moved
    split at moved
    · cases moved
      exact sound
    · next conn found =>
      cases moved
      exact message_sound sound found message settled
  | answer place =>
    rw [step] at moved
    split at moved
    · next connId first rest found =>
      cases moved
      exact answer_sound sound found
    · cases moved
  | close connId =>
    cases moved
    exact close_sound sound settled

def State.quiet (state : State User Scope) : Prop := ∀ handler ∈ state.handlers, handler.awaiting = []

-- Each open socket has what its messages leave in their order, and the index is that of the open sockets.
structure InTurn (may : Text → Text → Bool) (state : State User Scope) : Prop where
  subscriptions : ∀ connId conn, state.registry.connections.get connId = some conn → ∀ channel,
    channel ∈ conn.subscriptions ↔ processed may connId channel false state.sent = true
  index : ∀ connId channel, Listed state.registry.subscriptionIndex channel connId ↔ Subscribed state.registry connId channel

-- Where no message overtakes a check whose channel it takes away, and no close one that is yet to add its channel.
theorem turns_kept {actions : List (Action User)} (settled : Guarded (step may) (Settled may) (State.start : State User Scope) actions)
    (path : run (step may) State.start actions = some after) (quiet : after.quiet) : InTurn may after := by
  have sound := run_preserves step_sound start_sound settled path
  refine ⟨fun connId conn found channel => ?_,sound.listed⟩
  rw [sound.ordered connId conn found channel]
  refine (or_iff_left ?_).symm
  rintro ⟨⟨handler,member,_,held⟩,_⟩
  rw [quiet handler member] at held
  exact absurd held List.not_mem_nil

end

end

def allowing : Text → Text → Bool := fun _ _ => true

def orderly : List (Action Unit) := [.opens ['w'] () none,.message ['w'] (.subscribe [['a'],['b']]),.answer 0,.answer 0,.message ['w'] (.unsubscribe [['a']])]

def orderlyEnd : State Unit Unit :=
  ⟨⟨[(['w'],⟨(),none,[['b']],[]⟩)],[(['b'],[['w']])]⟩,[['w']],
    [(['w'],.subscribe [['a'],['b']]),(['w'],.unsubscribe [['a']])],[⟨['w'],[]⟩,⟨['w'],[]⟩]⟩

theorem orderly_settled : Guarded (step allowing) (Settled allowing) (State.start : State Unit Unit) orderly := by
  refine guarded_cons trivial rfl (guarded_cons (fun channel wrong => absurd wrong List.not_mem_nil) rfl
    (guarded_cons trivial rfl (guarded_cons trivial rfl (guarded_cons ?_ rfl trivial))))
  rintro channel _ ⟨⟨handler,member,_,held⟩,_⟩
  cases List.mem_singleton.mp member
  exact absurd held List.not_mem_nil

theorem orderly_quiet : orderlyEnd.quiet := by
  intro handler member
  rcases List.mem_cons.mp member with rfl | member
  · rfl
  · rw [List.mem_singleton.mp member]

theorem turns_kept_orderly : InTurn allowing orderlyEnd := turns_kept orderly_settled rfl orderly_quiet

-- The unsubscribe overtakes the check of the subscribe before it, and the close the check of another socket's.
def overtaking : List (Action Unit) := [.opens ['w'] () none,.message ['w'] (.subscribe [['a']]),.message ['w'] (.unsubscribe [['a']]),.answer 0,
  .opens ['v'] () none,.message ['v'] (.subscribe [['b']]),.close ['v'],.answer 2]

def overtaken : State Unit Unit :=
  ⟨⟨[(['w'],⟨(),none,[['a']],[]⟩)],[(['a'],[['w']]),(['b'],[['v']])]⟩,[['w'],['v']],
    [(['w'],.subscribe [['a']]),(['w'],.unsubscribe [['a']]),(['v'],.subscribe [['b']])],[⟨['w'],[]⟩,⟨['w'],[]⟩,⟨['v'],[]⟩]⟩

theorem overtaken_quiet : overtaken.quiet := by
  intro handler member
  rcases List.mem_cons.mp member with rfl | member
  · rfl
  rcases List.mem_cons.mp member with rfl | member
  · rfl
  · rw [List.mem_singleton.mp member]

theorem message_overtakes : run (step allowing) State.start overtaking = some overtaken ∧ overtaken.quiet ∧
    (¬∀ connId conn, overtaken.registry.connections.get connId = some conn → ∀ channel,
      channel ∈ conn.subscriptions ↔ processed allowing connId channel false overtaken.sent = true) ∧
    ¬∀ connId channel, Listed overtaken.registry.subscriptionIndex channel connId ↔ Subscribed overtaken.registry connId channel := by
  refine ⟨rfl,overtaken_quiet,fun turns => ?_,fun turns => ?_⟩
  · have held := (turns ['w'] _ rfl ['a']).mp (List.mem_singleton.mpr rfl)
    cases held
  · obtain ⟨_,found,_⟩ := (turns ['v'] ['b']).mp (List.mem_singleton.mpr rfl)
    cases found

end Zveltio.SocketTurns

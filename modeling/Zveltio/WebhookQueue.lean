import Zveltio.Runs
import Mathlib.Data.List.Count
import Mathlib.Data.List.Nodup
namespace Zveltio.WebhookQueue
open Runs

-- A queued text: all of it that a retry leaves as it is, and the two fields the worker reads.
structure Payload (γ : Type) where
  content : γ
  attempt : Nat
  retryAttempts : Option Nat
  deriving DecidableEq

def Payload.retries {γ : Type} (payload : Payload γ) : Nat := payload.retryAttempts.getD 3

-- number tells apart texts that are equal; the cache does not.
structure Item (γ : Type) where
  number : Nat
  payload : Payload γ
  deriving DecidableEq

-- queue, retry and dlq are in the cache. What is in the hands of a run of _process: hand is being delivered, failed waits for its ZADD,
-- dead for its LPUSH, claimed for its RPUSH. pushed, tried, succeeded and trimmed watch the deliveries.
structure State (ρ γ : Type) where
  queue : List (Item γ)
  retry : List (Item γ)
  dlq : List (Item γ)
  hand : List (ρ × Item γ)
  failed : List (ρ × Item γ)
  dead : List (ρ × Item γ)
  claimed : List (ρ × Item γ)
  pushed : List (Payload γ)
  tried : List Nat
  succeeded : List Nat
  trimmed : List Nat

def State.start {ρ γ : Type} : State ρ γ := ⟨[],[],[],[],[],[],[],[],[],[],[]⟩

inductive Action (ρ γ : Type) where
  | trigger (payload : Payload γ)
  | lmpop (r : ρ) (count : Nat)
  | delivered (r : ρ) (item : Item γ) (ok : Bool)
  | zadd (r : ρ) (item : Item γ)
  | lpush (r : ρ) (item : Item γ)
  | ltrim
  | zrem (r : ρ) (payload : Payload γ)
  | rpush (r : ρ) (item : Item γ)

section
variable {ρ γ : Type} [DecidableEq ρ] [DecidableEq γ]

def Item.retried (item : Item γ) : Item γ := {item with payload := {item.payload with attempt := item.payload.attempt + 1}}

-- A sorted set has each member once: adding it again only sets its score.
def zadd (members : List (Item γ)) (item : Item γ) : List (Item γ) :=
  if members.any (·.payload = item.payload) then members else members ++ [item]

-- The due texts a run read may be of any age when it comes to their ZREM: what counts is its answer.
def step (dlqMax : Nat) (state : State ρ γ) : Action ρ γ → Option (State ρ γ)
  | .trigger payload => some {state with queue := state.queue ++ [⟨state.pushed.length,payload⟩],pushed := state.pushed ++ [payload]}
  | .lmpop r count =>
    if count ≤ 10 then
      let items := state.queue.take count
      some {state with
        queue := state.queue.drop count
        hand := state.hand ++ items.map fun item => (r,item)
        tried := state.tried ++ items.map Item.number}
    else none
  | .delivered r item ok =>
    if (r,item) ∈ state.hand then
      let settled := {state with hand := state.hand.erase (r,item)}
      if ok then some {settled with succeeded := settled.succeeded ++ [item.number]}
      else if item.payload.attempt < item.payload.retries then some {settled with failed := settled.failed ++ [(r,item.retried)]}
      else some {settled with dead := settled.dead ++ [(r,item)]}
    else none
  | .zadd r item =>
    if (r,item) ∈ state.failed then some {state with failed := state.failed.erase (r,item),retry := zadd state.retry item} else none
  | .lpush r item =>
    if (r,item) ∈ state.dead then some {state with dead := state.dead.erase (r,item),dlq := item::state.dlq} else none
  | .ltrim => some {state with dlq := state.dlq.take dlqMax,trimmed := state.trimmed ++ (state.dlq.drop dlqMax).map Item.number}
  | .zrem r payload => match state.retry.find? (·.payload = payload) with
    | some item => some {state with retry := state.retry.erase item,claimed := state.claimed ++ [(r,item)]}
    | none => some state
  | .rpush r item =>
    if (r,item) ∈ state.claimed then some {state with claimed := state.claimed.erase (r,item),queue := state.queue ++ [item]} else none

def heldCount (held : List (ρ × Item γ)) (number : Nat) : Nat := (held.map fun one => one.2.number).count number

def itemCount (items : List (Item γ)) (number : Nat) : Nat := (items.map Item.number).count number

def total (state : State ρ γ) (number : Nat) : Nat :=
  itemCount state.queue number + itemCount state.retry number + itemCount state.dlq number + heldCount state.hand number +
    heldCount state.failed number + heldCount state.dead number + heldCount state.claimed number +
    state.succeeded.count number + state.trimmed.count number

structure Conserved (state : State ρ γ) : Prop where
  placed : ∀ number, total state number = if number < state.pushed.length then 1 else 0
  bounded : ∀ number payload, state.pushed[number]? = some payload → state.tried.count number ≤ payload.retries + 1
  alone : (state.hand.map fun held => held.2.number).Nodup
  ended : state.queue = [] → state.retry = [] → state.hand = [] → state.failed = [] → state.dead = [] → state.claimed = [] →
    ∀ number < state.pushed.length, state.succeeded.count number + itemCount state.dlq number + state.trimmed.count number = 1

-- The text that is to be retried is not in webhook:retry already.
def Permitted (state : State ρ γ) : Action ρ γ → Prop
  | .zadd _ item => ∀ member ∈ state.retry, member.payload ≠ item.payload
  | _ => True

end

section
variable {ρ γ : Type}

theorem itemCount_append (first second : List (Item γ)) (number : Nat) :
    itemCount (first ++ second) number = itemCount first number + itemCount second number := by
  simp [itemCount]

theorem itemCount_one (item : Item γ) (number : Nat) : itemCount [item] number = if item.number = number then 1 else 0 := by
  simp [itemCount,List.count_singleton]

theorem heldCount_append (first second : List (ρ × Item γ)) (number : Nat) :
    heldCount (first ++ second) number = heldCount first number + heldCount second number := by
  simp [heldCount]

theorem heldCount_one (r : ρ) (item : Item γ) (number : Nat) : heldCount [(r,item)] number = if item.number = number then 1 else 0 := by
  simp [heldCount,List.count_singleton]

theorem heldCount_held (r : ρ) (items : List (Item γ)) (number : Nat) : heldCount (items.map fun item => (r,item)) number = itemCount items number := by
  simp [heldCount,itemCount,Function.comp_def]

theorem itemCount_split (items : List (Item γ)) (count number : Nat) :
    itemCount items number = itemCount (items.take count) number + itemCount (items.drop count) number := by
  rw [← itemCount_append,List.take_append_drop]

theorem itemCount_pos {items : List (Item γ)} {item : Item γ} (member : item ∈ items) : 0 < itemCount items item.number :=
  List.count_pos_iff.mpr (List.mem_map_of_mem member)

theorem heldCount_pos {held : List (ρ × Item γ)} {r : ρ} {item : Item γ} (member : (r,item) ∈ held) : 0 < heldCount held item.number :=
  List.count_pos_iff.mpr (List.mem_map.mpr ⟨(r,item),member,rfl⟩)

end

section
variable {ρ γ : Type} [DecidableEq ρ] [DecidableEq γ]

theorem count_taken {α : Type} [BEq α] [LawfulBEq α] {items : List α} {item : α} (f : α → Nat) (member : item ∈ items) (number : Nat) :
    (items.map f).count number = ((items.erase item).map f).count number + if f item = number then 1 else 0 := by
  rw [((List.perm_cons_erase member).map f).count_eq,List.map_cons,List.count_cons]
  simp only [beq_iff_eq]

theorem itemCount_erase {items : List (Item γ)} {item : Item γ} (member : item ∈ items) (number : Nat) :
    itemCount items number = itemCount (items.erase item) number + if item.number = number then 1 else 0 := count_taken Item.number member number

theorem heldCount_erase {held : List (ρ × Item γ)} {r : ρ} {item : Item γ} (member : (r,item) ∈ held) (number : Nat) :
    heldCount held number = heldCount (held.erase (r,item)) number + if item.number = number then 1 else 0 :=
  count_taken (fun one : ρ × Item γ => one.2.number) member number

omit [DecidableEq ρ] in
theorem zadd_fresh {members : List (Item γ)} {item : Item γ} (fresh : ∀ member ∈ members, member.payload ≠ item.payload) :
    zadd members item = members ++ [item] := by
  unfold zadd
  rw [if_neg]
  intro there
  obtain ⟨member,found,same⟩ := List.any_eq_true.mp there
  exact fresh member found (by simpa using same)

theorem zrem_cases {dlqMax : Nat} {state after : State ρ γ} {r : ρ} {payload : Payload γ} (moved : step dlqMax state (.zrem r payload) = some after) :
    after = state ∨ ∃ item ∈ state.retry, item.payload = payload ∧
      after = {state with retry := state.retry.erase item,claimed := state.claimed ++ [(r,item)]} := by
  simp only [step] at moved
  split at moved
  · next item found =>
    cases Option.some.inj moved
    exact .inr ⟨item,List.mem_of_find?_eq_some found,by simpa using List.find?_some found,rfl⟩
  · cases Option.some.inj moved
    exact .inl rfl

theorem total_kept {dlqMax : Nat} {state after : State ρ γ} {action : Action ρ γ} (allowed : Permitted state action)
    (moved : step dlqMax state action = some after) (known : ∀ payload, action ≠ .trigger payload) (number : Nat) :
    total after number = total state number ∧ after.pushed = state.pushed := by
  cases action with
  | trigger payload => exact absurd rfl (known payload)
  | lmpop r count =>
    simp only [step] at moved
    split at moved
    · cases Option.some.inj moved
      refine ⟨?_,rfl⟩
      simp only [total,heldCount_append,heldCount_held]
      have parts := itemCount_split state.queue count number
      omega
    · cases moved
  | delivered r item ok =>
    simp only [step] at moved
    split at moved
    · next member =>
      have taken := heldCount_erase member number
      split at moved
      · cases Option.some.inj moved
        refine ⟨?_,rfl⟩
        simp only [total,List.count_append,List.count_singleton,beq_iff_eq]
        omega
      · split at moved <;>
        · cases Option.some.inj moved
          refine ⟨?_,rfl⟩
          simp only [total,heldCount_append,heldCount_one,Item.retried]
          omega
    · cases moved
  | zadd r item =>
    simp only [step] at moved
    split at moved
    · next member =>
      have taken := heldCount_erase member number
      cases Option.some.inj moved
      refine ⟨?_,rfl⟩
      simp only [total,zadd_fresh allowed,itemCount_append,itemCount_one]
      omega
    · cases moved
  | lpush r item =>
    simp only [step] at moved
    split at moved
    · next member =>
      have taken := heldCount_erase member number
      cases Option.some.inj moved
      refine ⟨?_,rfl⟩
      have first : itemCount (item::state.dlq) number = itemCount [item] number + itemCount state.dlq number := itemCount_append [item] state.dlq number
      simp only [total,first,itemCount_one]
      omega
    · cases moved
  | ltrim =>
    cases Option.some.inj moved
    refine ⟨?_,rfl⟩
    have cut := itemCount_split state.dlq dlqMax number
    simp only [total,List.count_append]
    change _ + (_ + itemCount (state.dlq.drop dlqMax) number) = _
    omega
  | zrem r payload =>
    rcases zrem_cases moved with rfl | ⟨item,member,_,rfl⟩
    · exact ⟨rfl,rfl⟩
    · have taken := itemCount_erase member number
      refine ⟨?_,rfl⟩
      simp only [total,heldCount_append,heldCount_one]
      omega
  | rpush r item =>
    simp only [step] at moved
    split at moved
    · next member =>
      have taken := heldCount_erase member number
      cases Option.some.inj moved
      refine ⟨?_,rfl⟩
      simp only [total,itemCount_append,itemCount_one]
      omega
    · cases moved

end

section
variable {ρ γ : Type}

def Known (pushed : List (Payload γ)) (item : Item γ) : Prop :=
  ∃ payload, pushed[item.number]? = some payload ∧ payload.retries = item.payload.retries

-- Between two attempts a delivery has had no more of them than its text says, and is within its retries or has had none.
def Waiting (pushed : List (Payload γ)) (tried : List Nat) (item : Item γ) : Prop :=
  Known pushed item ∧ tried.count item.number ≤ item.payload.attempt ∧ (tried.count item.number = 0 ∨ item.payload.attempt ≤ item.payload.retries)

def Trying (pushed : List (Payload γ)) (tried : List Nat) (item : Item γ) : Prop :=
  Known pushed item ∧ tried.count item.number ≤ item.payload.attempt + 1

structure Sound (state : State ρ γ) : Prop where
  placed : ∀ number, total state number = if number < state.pushed.length then 1 else 0
  queued : ∀ item ∈ state.queue, Waiting state.pushed state.tried item
  retrying : ∀ item ∈ state.retry, Waiting state.pushed state.tried item
  failing : ∀ held ∈ state.failed, Waiting state.pushed state.tried held.2
  claiming : ∀ held ∈ state.claimed, Waiting state.pushed state.tried held.2
  trying : ∀ held ∈ state.hand, Trying state.pushed state.tried held.2
  attempted : ∀ number ∈ state.tried, number < state.pushed.length
  bounded : ∀ number payload, state.pushed[number]? = some payload → state.tried.count number ≤ payload.retries + 1

theorem known_grown {pushed : List (Payload γ)} {item : Item γ} (payload : Payload γ) (known : Known pushed item) : Known (pushed ++ [payload]) item := by
  obtain ⟨first,found,same⟩ := known
  exact ⟨first,(List.getElem?_append_left (List.getElem?_eq_some_iff.mp found).1).trans found,same⟩

theorem once {state : State ρ γ} (sound : Sound state) (number : Nat) : total state number ≤ 1 := by
  rw [sound.placed]
  split <;> simp

theorem triggered_sound {state : State ρ γ} (payload : Payload γ) (sound : Sound state) :
    Sound {state with queue := state.queue ++ [⟨state.pushed.length,payload⟩],pushed := state.pushed ++ [payload]} := by
  have fresh : state.tried.count state.pushed.length = 0 :=
    List.count_eq_zero.mpr fun there => Nat.lt_irrefl _ (sound.attempted _ there)
  have grown : ∀ item, Waiting state.pushed state.tried item → Waiting (state.pushed ++ [payload]) state.tried item :=
    fun item waiting => ⟨known_grown payload waiting.1,waiting.2⟩
  exact {
    placed := by
      intro number
      have before := sound.placed number
      simp only [total] at before
      simp only [total,itemCount_append,itemCount_one,List.length_append,List.length_singleton]
      split <;> split at before <;> split <;> omega
    queued := by
      intro item member
      rcases List.mem_append.mp member with old | new
      · exact grown item (sound.queued item old)
      · cases List.mem_singleton.mp new
        exact ⟨⟨payload,by simp,rfl⟩,by simp [fresh],.inl fresh⟩
    retrying := fun item member => grown item (sound.retrying item member)
    failing := fun held member => grown held.2 (sound.failing held member)
    claiming := fun held member => grown held.2 (sound.claiming held member)
    trying := fun held member => ⟨known_grown payload (sound.trying held member).1,(sound.trying held member).2⟩
    attempted := fun number there => (by
      rw [List.length_append]
      exact Nat.lt_add_right _ (sound.attempted number there))
    bounded := by
      intro number first found
      by_cases old : number < state.pushed.length
      · exact sound.bounded number first ((List.getElem?_append_left old).symm.trans found)
      · have untried : state.tried.count number = 0 := List.count_eq_zero.mpr fun there => old (sound.attempted _ there)
        simp [untried]}

theorem popped_sound {state : State ρ γ} (r : ρ) (count : Nat) (sound : Sound state)
    (placed : ∀ number, total {state with
      queue := state.queue.drop count
      hand := state.hand ++ (state.queue.take count).map fun item => (r,item)
      tried := state.tried ++ (state.queue.take count).map Item.number} number = total state number) :
    Sound {state with
      queue := state.queue.drop count
      hand := state.hand ++ (state.queue.take count).map fun item => (r,item)
      tried := state.tried ++ (state.queue.take count).map Item.number} := by
  have tried : ∀ number, (state.tried ++ (state.queue.take count).map Item.number).count number =
      state.tried.count number + itemCount (state.queue.take count) number := fun number => List.count_append
  have parts := itemCount_split state.queue count
  have apart : ∀ item, itemCount (state.queue.take count) item.number = 0 → Waiting state.pushed state.tried item →
      Waiting state.pushed (state.tried ++ (state.queue.take count).map Item.number) item := by
    intro item elsewhere waiting
    rw [Waiting,tried,elsewhere]
    exact waiting
  have taken : ∀ item ∈ state.queue.take count, item ∈ state.queue := fun item => List.mem_of_mem_take
  have few : ∀ number, itemCount (state.queue.take count) number ≤ 1 := by
    intro number
    have once := once sound number
    have parts := parts number
    simp only [total] at once
    omega
  have elsewhere : ∀ number, 0 < itemCount (state.queue.drop count) number + itemCount state.retry number + heldCount state.hand number +
      heldCount state.failed number + heldCount state.claimed number → itemCount (state.queue.take count) number = 0 := by
    intro number there
    have once := once sound number
    have parts := parts number
    simp only [total] at once
    omega
  exact {
    placed := fun number => (placed number).trans (sound.placed number)
    queued := by
      intro item member
      refine apart item (elsewhere _ ?_) (sound.queued item (List.mem_of_mem_drop member))
      have there : 0 < itemCount (state.queue.drop count) item.number := itemCount_pos member
      omega
    retrying := by
      intro item member
      refine apart item (elsewhere _ ?_) (sound.retrying item member)
      have there : 0 < itemCount state.retry item.number := itemCount_pos member
      omega
    failing := by
      intro held member
      refine apart held.2 (elsewhere _ ?_) (sound.failing held member)
      have there : 0 < heldCount state.failed held.2.number := heldCount_pos member
      omega
    claiming := by
      intro held member
      refine apart held.2 (elsewhere _ ?_) (sound.claiming held member)
      have there : 0 < heldCount state.claimed held.2.number := heldCount_pos member
      omega
    trying := by
      intro held member
      rcases List.mem_append.mp member with old | new
      · have there : 0 < heldCount state.hand held.2.number := heldCount_pos old
        rw [Trying,tried,elsewhere held.2.number (by omega)]
        exact sound.trying held old
      · obtain ⟨item,there,rfl⟩ := List.mem_map.mp new
        obtain ⟨known,attempts,_⟩ := sound.queued item (taken item there)
        refine ⟨known,?_⟩
        rw [tried]
        exact Nat.add_le_add attempts (few item.number)
    attempted := by
      intro number member
      rcases List.mem_append.mp member with old | new
      · exact sound.attempted number old
      · obtain ⟨item,there,rfl⟩ := List.mem_map.mp new
        obtain ⟨⟨payload,found,_⟩,_⟩ := sound.queued item (taken item there)
        exact (List.getElem?_eq_some_iff.mp found).1
    bounded := by
      intro number payload found
      rw [tried]
      by_cases popped : number ∈ (state.queue.take count).map Item.number
      · obtain ⟨item,there,rfl⟩ := List.mem_map.mp popped
        obtain ⟨⟨first,here,retries⟩,attempts,within⟩ := sound.queued item (taken item there)
        cases here.symm.trans found
        have few := few item.number
        rw [retries]
        rcases within with none_yet | within <;> omega
      · rw [itemCount,List.count_eq_zero.mpr popped]
        exact sound.bounded number payload found}

theorem retried_waiting {pushed : List (Payload γ)} {tried : List Nat} {item : Item γ} (trying : Trying pushed tried item)
    (more : item.payload.attempt < item.payload.retries) : Waiting pushed tried item.retried :=
  ⟨trying.1,trying.2,.inr more⟩

theorem conserved_of_sound {state : State ρ γ} (sound : Sound state) : Conserved state where
  placed := sound.placed
  bounded := sound.bounded
  alone := by
    refine List.nodup_iff_count_le_one.mpr fun number => ?_
    have once := once sound number
    simp only [total] at once
    change heldCount state.hand number ≤ 1
    omega
  ended := by
    intro queue retry hand failed dead claimed number pushed
    have placed := sound.placed number
    rw [if_pos pushed] at placed
    simp only [total,queue,retry,hand,failed,dead,claimed,itemCount,heldCount,List.map_nil,List.count_nil] at placed
    simp only [itemCount]
    omega

end

section
variable {ρ γ : Type} [DecidableEq ρ] [DecidableEq γ]

theorem sound_preserved (dlqMax : Nat) : Preserved (step (ρ := ρ) (γ := γ) dlqMax) Permitted Sound := by
  intro before action after sound allowed moved
  have placed : (∀ payload, action ≠ .trigger payload) → ∀ number, total after number = if number < after.pushed.length then 1 else 0 := by
    intro known number
    obtain ⟨same,pushed⟩ := total_kept allowed moved known number
    rw [same,pushed]
    exact sound.placed number
  cases action with
  | trigger payload =>
    cases Option.some.inj moved
    exact triggered_sound payload sound
  | lmpop r count =>
    have kept := fun number => (total_kept allowed moved (fun _ wrong => (by cases wrong)) number).1
    simp only [step] at moved
    split at moved
    · cases Option.some.inj moved
      exact popped_sound r count sound kept
    · cases moved
  | delivered r item ok =>
    have placed := placed fun _ wrong => (by cases wrong)
    simp only [step] at moved
    split at moved
    · next member =>
      have trying := sound.trying (r,item) member
      have left : ∀ held ∈ before.hand.erase (r,item), Trying before.pushed before.tried held.2 :=
        fun held there => sound.trying held (List.mem_of_mem_erase there)
      split at moved
      · cases Option.some.inj moved
        exact {sound with placed,trying := left}
      · split at moved
        · next more =>
          cases Option.some.inj moved
          refine {sound with placed,trying := left,failing := ?_}
          intro held there
          rcases List.mem_append.mp there with old | new
          · exact sound.failing held old
          · cases List.mem_singleton.mp new
            exact retried_waiting trying more
        · cases Option.some.inj moved
          exact {sound with placed,trying := left}
    · cases moved
  | zadd r item =>
    have placed := placed fun _ wrong => (by cases wrong)
    simp only [step] at moved
    split at moved
    · next member =>
      cases Option.some.inj moved
      refine {sound with placed,failing := fun held there => sound.failing held (List.mem_of_mem_erase there),retrying := ?_}
      simp only [zadd_fresh allowed]
      intro waiting there
      rcases List.mem_append.mp there with old | new
      · exact sound.retrying waiting old
      · cases List.mem_singleton.mp new
        exact sound.failing (r,item) member
    · cases moved
  | lpush r item =>
    have placed := placed fun _ wrong => (by cases wrong)
    simp only [step] at moved
    split at moved
    · cases Option.some.inj moved
      exact {sound with placed}
    · cases moved
  | ltrim =>
    have placed := placed fun _ wrong => (by cases wrong)
    cases Option.some.inj moved
    exact {sound with placed}
  | zrem r payload =>
    have placed := placed fun _ wrong => (by cases wrong)
    rcases zrem_cases moved with rfl | ⟨item,member,_,rfl⟩
    · exact sound
    · refine {sound with placed,retrying := fun waiting there => sound.retrying waiting (List.mem_of_mem_erase there),claiming := ?_}
      intro held there
      rcases List.mem_append.mp there with old | new
      · exact sound.claiming held old
      · cases List.mem_singleton.mp new
        exact sound.retrying item member
  | rpush r item =>
    have placed := placed fun _ wrong => (by cases wrong)
    simp only [step] at moved
    split at moved
    · next member =>
      cases Option.some.inj moved
      refine {sound with placed,claiming := fun held there => sound.claiming held (List.mem_of_mem_erase there),queued := ?_}
      intro waiting there
      rcases List.mem_append.mp there with old | new
      · exact sound.queued waiting old
      · cases List.mem_singleton.mp new
        exact sound.claiming (r,item) member
    · cases moved

omit [DecidableEq ρ] [DecidableEq γ] in
theorem start_sound : Sound (State.start : State ρ γ) where
  placed := fun _ => rfl
  queued := fun _ wrong => (by cases wrong)
  retrying := fun _ wrong => (by cases wrong)
  failing := fun _ wrong => (by cases wrong)
  claiming := fun _ wrong => (by cases wrong)
  trying := fun _ wrong => (by cases wrong)
  attempted := fun _ wrong => (by cases wrong)
  bounded := fun _ _ wrong => (by cases wrong)

-- A text that is in webhook:retry already takes the second delivery in, and it is nowhere.
theorem refusal_lost {dlqMax : Nat} {state after : State ρ γ} {r : ρ} {item : Item γ} (sound : Sound state) (refused : ¬Permitted state (.zadd r item))
    (moved : step dlqMax state (.zadd r item) = some after) : ¬Conserved after := by
  intro conserved
  simp only [Permitted,not_forall,not_not] at refused
  obtain ⟨waiting,there,same⟩ := refused
  have merged : zadd state.retry item = state.retry := by
    unfold zadd
    rw [if_pos (List.any_eq_true.mpr ⟨waiting,there,by simpa using same⟩)]
  simp only [step] at moved
  split at moved
  · next member =>
    cases Option.some.inj moved
    have before := sound.placed item.number
    have gone := conserved.placed item.number
    have taken := heldCount_erase member item.number
    rw [if_pos rfl] at taken
    simp only [total,merged] at before gone
    split at before <;> split at gone <;> omega
  · cases moved

theorem deliveries_conserved {dlqMax : Nat} {actions : List (Action ρ γ)} {state : State ρ γ} (path : run (step dlqMax) .start actions = some state)
    (guarded : Guarded (step dlqMax) Permitted .start actions) : Conserved state ∧
    ∀ r item after, ¬Permitted state (.zadd r item) → step dlqMax state (.zadd r item) = some after → ¬Conserved after := by
  have sound : Sound state := run_preserves (sound_preserved dlqMax) start_sound guarded path
  exact ⟨conserved_of_sound sound,fun _ _ _ refused moved => refusal_lost sound refused moved⟩

-- Fails, is retried once by another run, and succeeds.
def retriedOnce : List (Action Bool Nat) := [.trigger ⟨7,0,none⟩,.lmpop true 10,.delivered true ⟨0,⟨7,0,none⟩⟩ false,.zadd true ⟨0,⟨7,1,none⟩⟩,
  .zrem false ⟨7,1,none⟩,.rpush false ⟨0,⟨7,1,none⟩⟩,.lmpop false 10,.delivered false ⟨0,⟨7,1,none⟩⟩ true]

theorem retriedOnce_guarded : Guarded (step 1000) Permitted .start retriedOnce :=
  guarded_cons trivial rfl (guarded_cons trivial rfl (guarded_cons trivial rfl (guarded_cons (fun _ wrong => (by cases wrong)) rfl
    (guarded_cons trivial rfl (guarded_cons trivial rfl (guarded_cons trivial rfl (guarded_cons trivial rfl trivial)))))))

theorem deliveries_conserved_retried : ∃ state, run (step 1000) .start retriedOnce = some state ∧ state.succeeded = [0] ∧ Conserved state :=
  ⟨_,rfl,rfl,(@deliveries_conserved Bool Nat _ _ 1000 retriedOnce _ rfl retriedOnce_guarded).1⟩

-- Two deliveries with one text fail, and one of them is left.
theorem equal_texts_lost : ∃ state : State Bool Nat, run (step 1000) .start
    [.trigger ⟨7,0,none⟩,.trigger ⟨7,0,none⟩,.lmpop true 10,.delivered true ⟨0,⟨7,0,none⟩⟩ false,.delivered true ⟨1,⟨7,0,none⟩⟩ false,
      .zadd true ⟨0,⟨7,1,none⟩⟩,.zadd true ⟨1,⟨7,1,none⟩⟩] = some state ∧ ¬Conserved state :=
  ⟨_,rfl,fun conserved => absurd (conserved.placed 1) (by decide)⟩

end
end Zveltio.WebhookQueue

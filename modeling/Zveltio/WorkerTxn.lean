import Zveltio.Savepoints
namespace Zveltio.WorkerTxn
open Savepoints

-- A connection in a transaction, with the writes that stand in it.
abbrev Session (ω : Type) := Connection Nat (List ω)

structure Reserved (ω : Type) where
  id : Nat
  session : Session ω

-- A request's transaction: window is the invocation whose settings are on a joined one, savepoints has the newest first.
structure RequestTxn (ε ω : Type) where
  conn : Option (Reserved ω)
  joined : Bool
  window : Option Nat
  ext : Option ε
  savepoints : List ε
  isOver : Bool

inductive SavepointOp where
  | begin
  | release
  | rollback
  deriving DecidableEq

inductive Work (ω : Type) where
  | query (writes : List ω)
  | savepoint (op : SavepointOp)
  | abandon (base : Nat)

-- What a message asks for, from whom and in which invocation.
structure Task (ε ω : Type) where
  ext : ε
  scope : Nat
  work : Work ω

-- How the database answers: to opening the connection (none: there is no connection to be had), to the statements
-- the host sends first, to the worker's own, to the one the host sends after it.
structure Fate where
  opened : Option Bool
  host : Bool
  ran : Bool
  temp : Bool

section
variable {ε ω : Type} [DecidableEq ε]

-- A statement of the host's: it writes nothing.
def command (ok : Bool) (session : Session ω) : Bool × Session ω := statement (fun now => if ok then some now else none) session

def exec (ok : Bool) (writes : List ω) (session : Session ω) : Bool × Session ω :=
  statement (fun now => if ok then some (now ++ writes) else none) session

def andThen (first : Bool × Session ω) (next : Session ω → Bool × Session ω) : Bool × Session ω := if first.1 then next first.2 else first

def RequestTxn.on (txn : RequestTxn ε ω) (id : Nat) (session : Session ω) : RequestTxn ε ω := {txn with conn := some ⟨id,session⟩}

def releaseWindow (txn : RequestTxn ε ω) (host : Bool) (session : Session ω) : Bool × Session ω :=
  if txn.window.isSome then command host session else (true,session)

-- The caller's settings are put back where the statement or what the host sends for it fails: the transaction is aborted, and the window is closed.
def joinedStatement (txn : RequestTxn ε ω) (scope : Nat) (writes : List ω) (fate : Fate) (session : Session ω) : Bool × Option Nat × Session ω :=
  let entered := if txn.window = some scope then (true,session) else andThen (releaseWindow txn fate.host session) (command fate.host)
  let out := andThen (andThen entered (exec fate.ran writes)) (command fate.temp)
  (out.1,if out.1 then some scope else none,out.2)

def savepointOp (txn : RequestTxn ε ω) (conn : Reserved ω) (ext : ε) (op : SavepointOp) (host : Bool) : Bool × RequestTxn ε ω :=
  let released := releaseWindow txn host conn.session
  let closed := {txn with window := none}
  if released.1 then
    match op with
    | .begin =>
      let set := savepoint (txn.savepoints.length + 1) released.2
      (set.1,{closed.on conn.id set.2 with savepoints := if set.1 then ext::txn.savepoints else txn.savepoints})
    | .release =>
      if txn.savepoints.head? = some ext then
        let ended := release txn.savepoints.length released.2
        (ended.1,{closed.on conn.id ended.2 with savepoints := if ended.1 then txn.savepoints.tail else txn.savepoints})
      else (false,closed.on conn.id released.2)
    | .rollback =>
      if txn.savepoints.head? = some ext then
        let ended := andThen (rollbackTo txn.savepoints.length released.2) (release txn.savepoints.length)
        (ended.1,{closed.on conn.id ended.2 with ext := none,savepoints := if ended.1 then txn.savepoints.tail else txn.savepoints})
      else (false,closed.on conn.id released.2)
  else (false,closed.on conn.id released.2)

-- abandonScopes: a scope begun above base savepoints is rolled back with all that was opened in it.
def abandon (txn : RequestTxn ε ω) (conn : Reserved ω) (base : Nat) (host : Bool) : Bool × RequestTxn ε ω :=
  let released := releaseWindow txn host conn.session
  let closed := {txn with window := none,ext := none}
  if released.1 then
    let ended := andThen (rollbackTo (base + 1) released.2) (release (base + 1))
    (ended.1,{closed.on conn.id ended.2 with savepoints := if ended.1 then txn.savepoints.drop (txn.savepoints.length - base) else txn.savepoints})
  else (false,closed.on conn.id released.2)

def perform (txn : RequestTxn ε ω) (conn : Reserved ω) (task : Task ε ω) (fate : Fate) : Bool × RequestTxn ε ω :=
  match task.work with
  | .query writes =>
    if txn.joined then
      let out := joinedStatement txn task.scope writes fate conn.session
      (out.1,{txn.on conn.id out.2.2 with window := out.2.1})
    else
      let out := exec fate.ran writes conn.session
      (out.1,txn.on conn.id out.2)
  | .savepoint op => savepointOp txn conn task.ext op fate.host
  | .abandon base => abandon txn conn base fate.host

-- setWorkerRole, where the transaction is in another extension's role; ext is forgotten first.
def switchRole (txn : RequestTxn ε ω) (conn : Reserved ω) (ext : ε) (host : Bool) : Bool × RequestTxn ε ω :=
  if txn.joined = false ∧ txn.ext ≠ some ext then
    let switched := command host conn.session
    (switched.1,{txn.on conn.id switched.2 with ext := if switched.1 then some ext else none})
  else (true,txn)

-- onConnection, its turn come: the first statement opens the connection, and none is sent once the transaction is over.
def onConnection (txn : RequestTxn ε ω) (task : Task ε ω) (fate : Fate) : Bool × RequestTxn ε ω :=
  if txn.isOver then (false,txn)
  else match txn.conn with
    | none =>
      if fate.opened = some true then perform {txn.on 0 (start []) with ext := some task.ext} ⟨0,start []⟩ task fate
      else (false,txn)
    | some conn =>
      let switched := switchRole txn conn task.ext fate.host
      match switched.1,switched.2.conn with
      | true,some placed => perform switched.2 placed task fate
      | _,_ => (false,switched.2)

-- What those who sent the statements were told stands: the writes, and those that stood when each open scope began.
structure View (ω : Type) where
  told : List ω
  outer : List (List ω)

def View.back (view : View ω) (outer : List (List ω)) : View ω :=
  match outer with
  | [] => view
  | before::rest => ⟨before,rest⟩

def View.hear (view : View ω) : Work ω → View ω
  | .query writes => {view with told := view.told ++ writes}
  | .savepoint .begin => {view with outer := view.told::view.outer}
  | .savepoint .release => {view with outer := view.outer.tail}
  | .savepoint .rollback => view.back view.outer
  | .abandon base => view.back (view.outer.drop (view.outer.length - (base + 1)))

-- The savepoints of the connection are the transaction's, and what stands on a usable one is what was told.
structure Agree (session : Session ω) (count : Nat) (view : View ω) : Prop where
  numbered : Numbered session.stack
  counted : session.stack.length = count
  now : session.aborted = false → session.now = view.told
  outer : session.stack.map Prod.snd = view.outer

def Matches (txn : RequestTxn ε ω) (view : View ω) : Prop :=
  match txn.conn with
  | none => txn.savepoints = [] ∧ txn.window = none ∧ view = ⟨[],[]⟩
  | some conn => Agree conn.session txn.savepoints.length view

end

section
variable {ω : Type} {session : Session ω} {count : Nat} {view : View ω}

theorem start_agree : Agree (start ([] : List ω)) 0 ⟨[],[]⟩ := ⟨trivial,rfl,fun _ => rfl,rfl⟩

theorem command_agree (agree : Agree session count view) (ok : Bool) : Agree (command ok session).2 count view := by
  unfold command statement
  split
  · exact agree
  · cases ok with
    | false => exact ⟨agree.numbered,agree.counted,fun wrong => (by cases wrong),agree.outer⟩
    | true => exact ⟨agree.numbered,agree.counted,agree.now,agree.outer⟩

theorem exec_agree (agree : Agree session count view) (ok : Bool) (writes : List ω) :
    Agree (exec ok writes session).2 count (if (exec ok writes session).1 then view.hear (.query writes) else view) := by
  unfold exec statement
  split
  · exact agree
  · cases ok with
    | false => exact ⟨agree.numbered,agree.counted,fun wrong => (by cases wrong),agree.outer⟩
    | true => exact ⟨agree.numbered,agree.counted,fun usable => congrArg (· ++ writes) (agree.now usable),agree.outer⟩

theorem savepoint_agree (agree : Agree session count view) :
    Agree (savepoint (count + 1) session).2 (if (savepoint (count + 1) session).1 then count + 1 else count)
      (if (savepoint (count + 1) session).1 then view.hear (.savepoint .begin) else view) := by
  unfold savepoint
  split
  · exact agree
  · next usable =>
    have same := agree.now (Bool.not_eq_true _ ▸ usable)
    exact ⟨⟨congrArg (· + 1) agree.counted.symm,agree.numbered⟩,congrArg (· + 1) agree.counted,fun _ => same,by
      rw [if_pos rfl]
      simp only [View.hear,List.map_cons,same,agree.outer]⟩

theorem newest_agree (agree : Agree session count view) (base : Nat) (held : base < count) :
    ∃ saved rest, newest (base + 1) session.stack = (base + 1,saved)::rest ∧ rest.length = base ∧ Numbered rest ∧
      view.outer.drop (view.outer.length - (base + 1)) = saved::rest.map Prod.snd := by
  have found := newest_numbered agree.numbered base
  rw [agree.counted,if_pos held] at found
  have outer : view.outer.drop (view.outer.length - (base + 1)) = (newest (base + 1) session.stack).map Prod.snd := by
    rw [found,List.map_drop,agree.outer,← agree.outer,List.length_map,agree.counted]
  have length : (newest (base + 1) session.stack).length = base + 1 := by
    rw [found,List.length_drop,agree.counted]
    omega
  have numbered : Numbered (newest (base + 1) session.stack) := found ▸ numbered_drop agree.numbered _
  match shape : newest (base + 1) session.stack with
  | [] =>
    rw [shape] at length
    cases length
  | (name,saved)::rest =>
    rw [shape] at length numbered outer
    have deep : rest.length = base := Nat.succ.inj length
    have named : name = base + 1 := deep ▸ numbered.1
    exact ⟨saved,rest,by rw [named],deep,numbered.2,outer⟩

theorem release_agree (agree : Agree session (count + 1) view) :
    Agree (release (count + 1) session).2 (if (release (count + 1) session).1 then count else count + 1)
      (if (release (count + 1) session).1 then view.hear (.savepoint .release) else view) := by
  obtain ⟨saved,rest,found,length,numbered,outer⟩ := newest_agree agree count (Nat.lt_succ_self count)
  unfold release
  split
  · exact agree
  · simp only [found,if_true]
    refine ⟨numbered,length,agree.now,?_⟩
    have whole : view.outer = saved::rest.map Prod.snd := by
      have all : view.outer.length - (count + 1) = 0 := by
        rw [← agree.outer,List.length_map,agree.counted,Nat.sub_self]
      rwa [all,List.drop_zero] at outer
    simp only [View.hear,whole,List.tail_cons]

theorem rollback_agree (agree : Agree session count view) (base : Nat) :
    let ended := andThen (rollbackTo (base + 1) session) (release (base + 1))
    Agree ended.2 (if ended.1 then base else count) (if ended.1 then view.hear (.abandon base) else view) ∧
      (ended.1 = true ↔ base < count) := by
  intro ended
  by_cases held : base < count
  · obtain ⟨saved,rest,found,length,numbered,outer⟩ := newest_agree agree base held
    have result : ended = (true,⟨saved,rest,false⟩) := by
      simp [ended,andThen,rollbackTo,found,release,newest]
    rw [result]
    refine ⟨⟨numbered,length,?_,?_⟩,by simp [held]⟩
    · intro _
      simp only [View.hear,View.back,outer,if_true]
    · simp only [View.hear,View.back,outer,if_true]
  · have none_left : newest (base + 1) session.stack = [] := by
      rw [newest_numbered agree.numbered,agree.counted,if_neg held]
    have result : ended = (false,{session with aborted := true}) := by
      simp [ended,andThen,rollbackTo,none_left]
    rw [result]
    exact ⟨⟨agree.numbered,agree.counted,fun wrong => (by cases wrong),agree.outer⟩,by simp [held]⟩

theorem hear_rollback (agree : Agree session (count + 1) view) : view.hear (.savepoint .rollback) = view.hear (.abandon count) := by
  have all : view.outer.length - (count + 1) = 0 := by
    rw [← agree.outer,List.length_map,agree.counted,Nat.sub_self]
  simp only [View.hear,all,List.drop_zero]

end

section
variable {ε ω : Type} [DecidableEq ε] {txn : RequestTxn ε ω} {conn : Reserved ω} {view : View ω}

omit [DecidableEq ε] in
theorem releaseWindow_agree {session : Session ω} {count : Nat} (agree : Agree session count view) (host : Bool) :
    Agree (releaseWindow txn host session).2 count view := by
  unfold releaseWindow
  split
  · exact command_agree agree host
  · exact agree

theorem savepointOp_agree (agree : Agree conn.session txn.savepoints.length view) (ext : ε) (op : SavepointOp) (host : Bool) :
    ∃ session, (savepointOp txn conn ext op host).2.conn = some ⟨conn.id,session⟩ ∧ Agree session (savepointOp txn conn ext op host).2.savepoints.length
      (if (savepointOp txn conn ext op host).1 then view.hear (.savepoint op) else view) := by
  have cleared : Agree (releaseWindow txn host conn.session).2 _ _ := releaseWindow_agree agree host
  unfold savepointOp
  by_cases released : (releaseWindow txn host conn.session).1 = true
  · rw [if_pos released]
    cases op with
    | begin =>
      refine ⟨_,rfl,?_⟩
      have set := savepoint_agree cleared
      split at set
      · next done => simpa only [done,if_true,List.length_cons] using set
      · next done => simpa only [done,if_false,Bool.false_eq_true] using set
    | release =>
      by_cases own : txn.savepoints.head? = some ext
      · simp only [if_pos own]
        obtain ⟨rest,shape⟩ := List.head?_eq_some_iff.mp own
        rw [shape,List.length_cons] at cleared
        have ended := release_agree cleared
        refine ⟨_,rfl,?_⟩
        simp only [shape,List.length_cons,List.tail_cons] at ended ⊢
        split at ended
        · next done => simpa only [done,if_true] using ended
        · next done => simpa only [done,if_false,Bool.false_eq_true,List.length_cons] using ended
      · simp only [if_neg own]
        exact ⟨_,rfl,cleared⟩
    | rollback =>
      by_cases own : txn.savepoints.head? = some ext
      · simp only [if_pos own]
        obtain ⟨rest,shape⟩ := List.head?_eq_some_iff.mp own
        rw [shape,List.length_cons] at cleared
        have ended := (rollback_agree cleared rest.length).1
        rw [← hear_rollback cleared] at ended
        refine ⟨_,rfl,?_⟩
        simp only [shape,List.length_cons,List.tail_cons] at ended ⊢
        split at ended
        · next done => simpa only [done,if_true] using ended
        · next done => simpa only [done,if_false,Bool.false_eq_true,List.length_cons] using ended
      · simp only [if_neg own]
        exact ⟨_,rfl,cleared⟩
  · rw [if_neg released]
    simp only [Bool.not_eq_true] at released
    exact ⟨_,rfl,cleared⟩

omit [DecidableEq ε] in
theorem abandon_agree (agree : Agree conn.session txn.savepoints.length view) (base : Nat) (host : Bool) :
    ∃ session, (abandon txn conn base host).2.conn = some ⟨conn.id,session⟩ ∧ Agree session (abandon txn conn base host).2.savepoints.length
      (if (abandon txn conn base host).1 then view.hear (.abandon base) else view) := by
  have cleared : Agree (releaseWindow txn host conn.session).2 _ _ := releaseWindow_agree agree host
  unfold abandon
  by_cases released : (releaseWindow txn host conn.session).1 = true
  · rw [if_pos released]
    obtain ⟨ended,reached⟩ := rollback_agree cleared base
    refine ⟨_,rfl,?_⟩
    split at ended
    · next done =>
      have kept : (txn.savepoints.drop (txn.savepoints.length - base)).length = base := by
        have held := reached.mp done
        rw [List.length_drop]
        omega
      simpa only [done,if_true,kept] using ended
    · next done => simpa only [done,if_false,Bool.false_eq_true] using ended
  · rw [if_neg released]
    exact ⟨_,rfl,cleared⟩

omit [DecidableEq ε] in
theorem joinedStatement_agree (agree : Agree conn.session txn.savepoints.length view) (scope : Nat) (writes : List ω) (fate : Fate) :
    Agree (joinedStatement txn scope writes fate conn.session).2.2 txn.savepoints.length
      (if (joinedStatement txn scope writes fate conn.session).1 then view.hear (.query writes) else view) := by
  have entering : Agree (if txn.window = some scope then (true,conn.session) else
      andThen (releaseWindow txn fate.host conn.session) (command fate.host)).2 txn.savepoints.length view := by
    split
    · exact agree
    · unfold andThen
      split
      · exact command_agree (releaseWindow_agree agree fate.host) fate.host
      · exact releaseWindow_agree agree fate.host
  unfold joinedStatement
  generalize (if txn.window = some scope then (true,conn.session) else andThen (releaseWindow txn fate.host conn.session) (command fate.host)) = entered at entering
  obtain ⟨ok,session⟩ := entered
  cases ok with
  | false => exact entering
  | true =>
    have ran := exec_agree entering fate.ran writes
    simp only [andThen,if_true]
    cases told : (exec fate.ran writes session).1 with
    | false =>
      rw [told] at ran
      simp only [told,if_false,Bool.false_eq_true] at ran ⊢
      exact ran
    | true =>
      rw [told,if_pos rfl] at ran
      have after := command_agree ran fate.temp
      simp only [if_true]
      cases kept : (command fate.temp (exec fate.ran writes session).2).1 with
      | true => simpa only [kept,if_true] using after
      | false =>
        refine ⟨after.numbered,after.counted,fun usable => ?_,after.outer⟩
        rw [show (command fate.temp (exec fate.ran writes session).2).2.aborted = true from statement_failed kept] at usable
        cases usable

theorem perform_agree (conn : Reserved ω) (agree : Agree conn.session txn.savepoints.length view) (task : Task ε ω) (fate : Fate) :
    ∃ session, (perform txn conn task fate).2.conn = some ⟨conn.id,session⟩ ∧ Agree session (perform txn conn task fate).2.savepoints.length
      (if (perform txn conn task fate).1 then view.hear task.work else view) := by
  obtain ⟨ext,scope,work⟩ := task
  cases work with
  | query writes =>
    simp only [perform]
    split
    · exact ⟨_,rfl,joinedStatement_agree agree scope writes fate⟩
    · exact ⟨_,rfl,exec_agree agree fate.ran writes⟩
  | savepoint op => exact savepointOp_agree agree ext op fate.host
  | abandon base => exact abandon_agree agree base fate.host

theorem switchRole_agree (agree : Agree conn.session txn.savepoints.length view) (there : txn.conn = some conn) (ext : ε) (host : Bool) :
    ∃ session, (switchRole txn conn ext host).2.conn = some ⟨conn.id,session⟩ ∧ Agree session (switchRole txn conn ext host).2.savepoints.length view := by
  unfold switchRole
  split
  · exact ⟨_,rfl,command_agree agree host⟩
  · exact ⟨conn.session,there,agree⟩

theorem perform_frame (txn : RequestTxn ε ω) (conn : Reserved ω) (task : Task ε ω) (fate : Fate) :
    (perform txn conn task fate).2.joined = txn.joined ∧ (perform txn conn task fate).2.isOver = txn.isOver := by
  obtain ⟨ext,scope,work⟩ := task
  cases work with
  | query writes =>
    simp only [perform]
    split <;> exact ⟨rfl,rfl⟩
  | savepoint op =>
    simp only [perform,savepointOp]
    split
    · cases op with
      | begin => exact ⟨rfl,rfl⟩
      | release =>
        simp only
        split <;> exact ⟨rfl,rfl⟩
      | rollback =>
        simp only
        split <;> exact ⟨rfl,rfl⟩
    · exact ⟨rfl,rfl⟩
  | abandon base =>
    simp only [perform,abandon]
    split <;> exact ⟨rfl,rfl⟩

theorem switchRole_frame (txn : RequestTxn ε ω) (conn : Reserved ω) (ext : ε) (host : Bool) :
    (switchRole txn conn ext host).2.joined = txn.joined ∧ (switchRole txn conn ext host).2.isOver = txn.isOver := by
  unfold switchRole
  split <;> exact ⟨rfl,rfl⟩

def savepointsAfter (txn : RequestTxn ε ω) (task : Task ε ω) (told : Bool) : List ε :=
  if told then match task.work with
    | .query _ => txn.savepoints
    | .savepoint .begin => task.ext::txn.savepoints
    | .savepoint _ => txn.savepoints.tail
    | .abandon base => txn.savepoints.drop (txn.savepoints.length - base)
  else txn.savepoints

theorem perform_savepoints (txn : RequestTxn ε ω) (conn : Reserved ω) (task : Task ε ω) (fate : Fate) :
    (perform txn conn task fate).2.savepoints = savepointsAfter txn task (perform txn conn task fate).1 := by
  obtain ⟨ext,scope,work⟩ := task
  cases work with
  | query writes =>
    simp only [perform,savepointsAfter]
    split <;> exact (ite_self _).symm
  | savepoint op =>
    simp only [perform,savepointOp]
    split
    · cases op with
      | begin => rfl
      | release =>
        simp only
        split <;> rfl
      | rollback =>
        simp only
        split <;> rfl
    · rfl
  | abandon base =>
    simp only [perform,abandon]
    split <;> rfl

theorem switchRole_savepoints (txn : RequestTxn ε ω) (conn : Reserved ω) (ext : ε) (host : Bool) :
    (switchRole txn conn ext host).2.savepoints = txn.savepoints := by
  unfold switchRole
  split <;> rfl

theorem onConnection_savepoints (txn : RequestTxn ε ω) (task : Task ε ω) (fate : Fate) :
    (onConnection txn task fate).2.savepoints = savepointsAfter txn task (onConnection txn task fate).1 := by
  unfold onConnection
  split
  · rfl
  · split
    · split
      · exact perform_savepoints _ _ _ _
      · rfl
    · next conn there =>
      simp only
      split
      · rw [perform_savepoints]
        unfold savepointsAfter
        rw [switchRole_savepoints]
      · exact switchRole_savepoints ..

theorem onConnection_frame (txn : RequestTxn ε ω) (task : Task ε ω) (fate : Fate) :
    (onConnection txn task fate).2.joined = txn.joined ∧ (onConnection txn task fate).2.isOver = txn.isOver := by
  unfold onConnection
  split
  · exact ⟨rfl,rfl⟩
  · split
    · split
      · exact perform_frame _ _ _ _
      · exact ⟨rfl,rfl⟩
    · next conn there =>
      obtain ⟨joined,isOver⟩ := switchRole_frame txn conn task.ext fate.host
      simp only
      split
      · obtain ⟨second,again⟩ := perform_frame (switchRole txn conn task.ext fate.host).2 _ task fate
        exact ⟨second.trans joined,again.trans isOver⟩
      · exact ⟨joined,isOver⟩

theorem onConnection_matches (matched : Matches txn view) (task : Task ε ω) (fate : Fate) :
    Matches (onConnection txn task fate).2 (if (onConnection txn task fate).1 then view.hear task.work else view) := by
  unfold onConnection
  split
  · exact matched
  · split
    · next none_left =>
      unfold Matches at matched
      rw [none_left] at matched
      obtain ⟨empty,_,same⟩ := matched
      split
      · subst same
        have agree : Agree (start ([] : List ω)) ({txn.on 0 (start []) with ext := some task.ext} : RequestTxn ε ω).savepoints.length ⟨[],[]⟩ := by
          simp only [RequestTxn.on,empty]
          exact start_agree
        obtain ⟨session,there,after⟩ := perform_agree ⟨0,start []⟩ agree task fate
        unfold Matches
        rw [there]
        exact after
      · unfold Matches
        rw [none_left]
        exact ⟨empty,‹_›,same⟩
    · next conn there =>
      unfold Matches at matched
      rw [there] at matched
      obtain ⟨session,placed,agree⟩ := switchRole_agree matched there task.ext fate.host
      simp only [placed]
      split
      · next placed' _ same =>
        cases same
        obtain ⟨later,there,after⟩ := perform_agree ⟨conn.id,session⟩ agree task fate
        unfold Matches
        rw [there]
        exact after
      · unfold Matches
        rw [placed]
        exact agree

-- No window is open on an aborted transaction, nor on one of the request's own.
def Closed (txn : RequestTxn ε ω) : Prop :=
  (txn.joined = false → txn.window = none) ∧ ∀ conn, txn.conn = some conn → conn.session.aborted = true → txn.window = none

theorem andThen_usable {first : Bool × Session ω} {ok : Bool} (done : (andThen first (command ok)).1 = true) :
    (andThen first (command ok)).2.aborted = false := by
  unfold andThen at done ⊢
  split at done
  · next reached =>
    rw [if_pos reached]
    exact statement_done done
  · next failed => exact absurd done failed

omit [DecidableEq ε] in
theorem joinedStatement_closed {scope : Nat} {writes : List ω} {fate : Fate} {session : Session ω}
    (aborted : (joinedStatement txn scope writes fate session).2.2.aborted = true) : (joinedStatement txn scope writes fate session).2.1 = none :=
  if_neg fun done => absurd ((andThen_usable done).symm.trans aborted) Bool.false_ne_true

theorem perform_closed (closed : txn.joined = false → txn.window = none) (conn : Reserved ω) (task : Task ε ω) (fate : Fate) :
    Closed (perform txn conn task fate).2 := by
  obtain ⟨ext,scope,work⟩ := task
  cases work with
  | query writes =>
    simp only [perform]
    split
    · next joined => exact ⟨fun wrong => absurd (wrong.symm.trans joined) Bool.false_ne_true,fun other same aborted => by
        cases same
        exact joinedStatement_closed aborted⟩
    · next own => exact ⟨closed,fun _ _ _ => closed (Bool.not_eq_true _ ▸ own)⟩
  | savepoint op =>
    simp only [perform,savepointOp]
    split
    · cases op with
      | begin => exact ⟨fun _ => rfl,fun _ _ _ => rfl⟩
      | release =>
        simp only
        split <;> exact ⟨fun _ => rfl,fun _ _ _ => rfl⟩
      | rollback =>
        simp only
        split <;> exact ⟨fun _ => rfl,fun _ _ _ => rfl⟩
    · exact ⟨fun _ => rfl,fun _ _ _ => rfl⟩
  | abandon base =>
    simp only [perform,abandon]
    split <;> exact ⟨fun _ => rfl,fun _ _ _ => rfl⟩

theorem onConnection_closed (closed : Closed txn) (task : Task ε ω) (fate : Fate) : Closed (onConnection txn task fate).2 := by
  unfold onConnection
  split
  · exact closed
  · split
    · split
      · refine perform_closed ?_ _ _ _
        exact closed.1
      · exact closed
    · next conn there =>
      have window : (switchRole txn conn task.ext fate.host).2.window = txn.window := by
        unfold switchRole
        split <;> rfl
      have switched : Closed (switchRole txn conn task.ext fate.host).2 := by
        unfold switchRole
        split
        · next own => exact ⟨fun _ => closed.1 own.1,fun _ _ _ => closed.1 own.1⟩
        · exact closed
      simp only
      split
      · refine perform_closed (fun own => ?_) _ _ _
        rw [(switchRole_frame txn conn task.ext fate.host).1] at own
        exact window.trans (closed.1 own)
      · exact switched

omit [DecidableEq ε] in
theorem command_true {session : Session ω} (usable : session.aborted = false) : command true session = (true,session) := by
  unfold command statement
  rw [usable]
  cases session
  simp only at usable
  subst usable
  rfl

-- A rollback goes through, aborted as the transaction may be, where what the host sends before it does.
theorem rollback_reached {task : Task ε ω} {fate : Fate} (closed : Closed txn) (matched : Matches txn view) (usable : txn.isOver = false)
    (there : txn.conn = some conn) (host : fate.host = true) (role : conn.session.aborted = true → txn.joined = true ∨ txn.ext = some task.ext)
    (own : task.work = .savepoint .rollback ∧ txn.savepoints.head? = some task.ext ∨ ∃ base, task.work = .abandon base ∧ base < txn.savepoints.length) :
    (onConnection txn task fate).1 = true := by
  have switched : ∃ ext, switchRole txn conn task.ext fate.host = (true,{txn with ext}) := by
    unfold switchRole
    split
    · next other =>
      have intact : conn.session.aborted = false := by
        refine Bool.eq_false_iff.mpr fun aborted => ?_
        rcases role aborted with joined | same
        · exact absurd (other.1.symm.trans joined) Bool.false_ne_true
        · exact other.2 same
      rw [host,command_true intact]
      refine ⟨some task.ext,?_⟩
      simp only [RequestTxn.on,if_true,there]
    · exact ⟨txn.ext,rfl⟩
  obtain ⟨ext,placed⟩ := switched
  have released (other : RequestTxn ε ω) (same : other.window = txn.window) : releaseWindow other fate.host conn.session = (true,conn.session) := by
    unfold releaseWindow
    split
    · next window =>
      have intact : conn.session.aborted = false := by
        refine Bool.eq_false_iff.mpr fun aborted => ?_
        rw [same,closed.2 conn there aborted] at window
        cases window
      rw [host,command_true intact]
    · rfl
  have agree : Agree conn.session txn.savepoints.length view := by
    unfold Matches at matched
    rwa [there] at matched
  unfold onConnection
  rw [if_neg (by rw [usable]; exact Bool.false_ne_true)]
  simp only [there,placed]
  obtain ⟨name,scope,work⟩ := task
  rcases own with ⟨same,head⟩ | ⟨base,same,held⟩
  · simp only at same head
    subst same
    obtain ⟨rest,shape⟩ := List.head?_eq_some_iff.mp head
    have reached : (andThen (rollbackTo txn.savepoints.length conn.session) (release txn.savepoints.length)).1 = true := by
      rw [shape,List.length_cons]
      exact (rollback_agree agree rest.length).2.mpr (by rw [shape]; exact Nat.lt_succ_self _)
    simp only [perform,savepointOp,released {txn with conn := some conn,ext} rfl,if_true,head]
    exact reached
  · simp only at same
    subst same
    simp only [perform,abandon,released {txn with conn := some conn,ext} rfl,if_true]
    exact (rollback_agree agree base).2.mpr held

theorem begin_reached {fate : Fate} (usable : txn.isOver = false) (host : fate.host = true)
    (opened : txn.conn = none → fate.opened = some true) (intact : ∀ conn, txn.conn = some conn → conn.session.aborted = false) (ext : ε) (scope : Nat) :
    (onConnection txn ⟨ext,scope,.savepoint .begin⟩ fate).1 = true := by
  have sets (other : RequestTxn ε ω) (conn : Reserved ω) (clear : conn.session.aborted = false) :
      (perform other conn ⟨ext,scope,.savepoint .begin⟩ fate).1 = true := by
    have released : releaseWindow other fate.host conn.session = (true,conn.session) := by
      unfold releaseWindow
      split
      · rw [host,command_true clear]
      · rfl
    simp only [perform,savepointOp,released,if_true,savepoint,clear,Bool.false_eq_true,if_false]
  unfold onConnection
  rw [if_neg (by rw [usable]; exact Bool.false_ne_true)]
  cases there : txn.conn with
  | none =>
    simp only [opened there,if_true]
    exact sets _ _ rfl
  | some conn =>
    have clear := intact conn there
    have switched : ∃ other, switchRole txn conn ext fate.host = (true,other) ∧ other.conn = some conn := by
      unfold switchRole
      rw [host,command_true clear]
      split
      · exact ⟨_,rfl,rfl⟩
      · exact ⟨_,rfl,there⟩
    obtain ⟨other,same,placed⟩ := switched
    simp only [same,placed]
    exact sets other conn clear

end

end Zveltio.WorkerTxn

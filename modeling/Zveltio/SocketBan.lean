import Zveltio.ClassicBpf
namespace Zveltio.SocketBan

open Zveltio.ClassicBpf

inductive Arch where
  | x64 | arm64
  deriving DecidableEq

def Arch.name : Arch → String
  | .x64 => "x64"
  | .arm64 => "arm64"

def archOf : String → Option Arch
  | "x64" => some .x64
  | "arm64" => some .arm64
  | _ => none

def AUDIT_ARCH : Arch → Nat
  | .x64 => 0xc000003e
  | .arm64 => 0xc00000b7

def DENIED_NR : Arch → List Nat
  | .x64 => [41,425,426,427]
  | .arm64 => [198,425,426,427]

def SOCKETPAIR_NR : Arch → Nat
  | .x64 => 53
  | .arm64 => 199

def AF_UNIX : Nat := 1
def SOCK_STREAM : Nat := 1
def SOCK_TYPE_MASK : Nat := 0xf
def X32_SYSCALL_BIT : Nat := 0x40000000

def LD_W_ABS : Nat := 0x20
def JEQ_K : Nat := 0x15
def JGE_K : Nat := 0x35
def AND_K : Nat := 0x54
def RET_K : Nat := 0x06
def SECCOMP_DATA_NR : Nat := 0
def SECCOMP_DATA_ARCH : Nat := 4
def SECCOMP_DATA_ARG0 : Nat := 16
def SECCOMP_DATA_ARG1 : Nat := 24
def RET_KILL_PROCESS : Nat := 0x80000000
def RET_EACCES : Nat := 0x00050000 ||| 13
def RET_ALLOW : Nat := 0x7fff0000

def deny : Nat × Nat × Nat × Nat := (RET_K,0,0,RET_EACCES)

def prog (arch : Arch) : List (Nat × Nat × Nat × Nat) :=
  [(LD_W_ABS,0,0,SECCOMP_DATA_ARCH),
    (JEQ_K,1,0,AUDIT_ARCH arch),
    (RET_K,0,0,RET_KILL_PROCESS),
    (LD_W_ABS,0,0,SECCOMP_DATA_NR)] ++
  (if arch = .x64 then [(JGE_K,0,1,X32_SYSCALL_BIT),deny] else []) ++
  (DENIED_NR arch).flatMap (fun nr => [(JEQ_K,0,1,nr),deny]) ++
  [(JEQ_K,0,7,SOCKETPAIR_NR arch),
    (LD_W_ABS,0,0,SECCOMP_DATA_ARG0),
    (JEQ_K,0,4,AF_UNIX),
    (LD_W_ABS,0,0,SECCOMP_DATA_ARG1),
    (AND_K,0,0,SOCK_TYPE_MASK),
    (JEQ_K,0,1,SOCK_STREAM),
    (RET_K,0,0,RET_ALLOW),
    deny] ++
  [(RET_K,0,0,RET_ALLOW)]

def socketBanFilter (arch : String) : Except String (List Byte) :=
  match archOf arch with
  | none => .error ("no seccomp socket ban for architecture " ++ arch)
  | some known => .ok (written (prog known))

-- The calls that give a process a socket, with their numbers in the kernel's own tables.
inductive Syscall where
  | socket | socketpair | io_uring_setup | io_uring_enter | io_uring_register
  deriving DecidableEq

def Syscall.number : Arch → Syscall → Nat
  | .x64,.socket => 41
  | .x64,.socketpair => 53
  | .arm64,.socket => 198
  | .arm64,.socketpair => 199
  | _,.io_uring_setup => 425
  | _,.io_uring_enter => 426
  | _,.io_uring_register => 427

-- A connected stream pair inside the process: family and type are ints, the type's flags aside.
def streamPair (data : SeccompData) : Prop :=
  (data.args 0).toNat % 2 ^ 32 = 1 ∧ (data.args 1).toNat % 16 = 1

instance (data : SeccompData) : Decidable (streamPair data) := inferInstanceAs (Decidable (_ ∧ _))

-- A call that is refused: one of the x32 range, or one of the table other than a stream pair.
def Refused (arch : Arch) (data : SeccompData) : Prop :=
  (arch = .x64 ∧ 0x40000000 ≤ data.nr.toNat) ∨
    ∃ call : Syscall, data.nr.toNat = call.number arch ∧ ¬ (call = .socketpair ∧ streamPair data)

theorem refused_exact (arch : Arch) (data : SeccompData) : Refused arch data ↔
    (arch = .x64 ∧ X32_SYSCALL_BIT ≤ data.nr.toNat) ∨ data.nr.toNat ∈ DENIED_NR arch ∨
      (data.nr.toNat = SOCKETPAIR_NR arch ∧ ¬ streamPair data) := by
  unfold Refused
  refine or_congr_right ⟨?_,?_⟩
  · rintro ⟨call,same,outside⟩
    rw [same]
    cases call with
    | socketpair => cases arch <;> exact Or.inr ⟨rfl,fun pair => outside ⟨rfl,pair⟩⟩
    | socket => cases arch <;> exact Or.inl (by decide)
    | io_uring_setup => cases arch <;> exact Or.inl (by decide)
    | io_uring_enter => cases arch <;> exact Or.inl (by decide)
    | io_uring_register => cases arch <;> exact Or.inl (by decide)
  · rintro (banned | ⟨same,apart⟩)
    · have listed : DENIED_NR arch = [Syscall.socket,.io_uring_setup,.io_uring_enter,.io_uring_register].map (Syscall.number arch) := by
        cases arch <;> rfl
      rw [listed] at banned
      obtain ⟨call,among,same⟩ := List.mem_map.mp banned
      refine ⟨call,same.symm,fun pair => ?_⟩
      rw [pair.1] at among
      exact absurd among (by decide)
    · refine ⟨.socketpair,same.trans ?_,fun pair => apart pair.2⟩
      cases arch <;> rfl

instance (arch : Arch) (data : SeccompData) : Decidable (Refused arch data) := decidable_of_iff _ (refused_exact arch data).symm

def verdict (arch : Arch) (data : SeccompData) : Word :=
  if data.arch.toNat ≠ AUDIT_ARCH arch then BitVec.ofNat 32 RET_KILL_PROCESS
  else if Refused arch data then BitVec.ofNat 32 RET_EACCES else BitVec.ofNat 32 RET_ALLOW

section
variable {load : Nat → Option Word}

theorem run_load (offset : Nat) (rest : List Instruction) (acc : Word) :
    run load (instruction LD_W_ABS 0 0 offset::rest) 0 acc = (load (offset % 2 ^ 32)).bind (run load rest 0) := rfl

theorem run_ret (word : Nat) (rest : List Instruction) (acc : Word) :
    run load (instruction RET_K 0 0 word::rest) 0 acc = some (BitVec.ofNat 32 word) := rfl

theorem run_and (mask : Nat) (rest : List Instruction) (acc : Word) :
    run load (instruction AND_K 0 0 mask::rest) 0 acc = run load rest 0 (acc &&& BitVec.ofNat 32 mask) := rfl

theorem run_jeq (jt jf k : Nat) (rest : List Instruction) (acc : Word) :
    run load (instruction JEQ_K jt jf k::rest) 0 acc =
      if acc = BitVec.ofNat 32 k then run load rest (jt % 2 ^ 8) acc else run load rest (jf % 2 ^ 8) acc := by
  have chosen : run load (instruction JEQ_K jt jf k::rest) 0 acc =
      run load rest (if decide (acc = BitVec.ofNat 32 k) then BitVec.ofNat 8 jt else BitVec.ofNat 8 jf).toNat acc := rfl
  rw [chosen]
  by_cases same : acc = BitVec.ofNat 32 k
  · rw [if_pos same,if_pos (decide_eq_true same),BitVec.toNat_ofNat]
  · rw [if_neg same,if_neg fun equal => same (of_decide_eq_true equal),BitVec.toNat_ofNat]

theorem run_jge (jt jf k : Nat) (rest : List Instruction) (acc : Word) :
    run load (instruction JGE_K jt jf k::rest) 0 acc =
      if k % 2 ^ 32 ≤ acc.toNat then run load rest (jt % 2 ^ 8) acc else run load rest (jf % 2 ^ 8) acc := by
  have chosen : run load (instruction JGE_K jt jf k::rest) 0 acc =
      run load rest (if decide (BitVec.ofNat 32 k ≤ acc) then BitVec.ofNat 8 jt else BitVec.ofNat 8 jf).toNat acc := rfl
  have unsigned : BitVec.ofNat 32 k ≤ acc ↔ k % 2 ^ 32 ≤ acc.toNat := by rw [BitVec.le_def,BitVec.toNat_ofNat]
  rw [chosen]
  by_cases reaches : k % 2 ^ 32 ≤ acc.toNat
  · rw [if_pos reaches,if_pos (decide_eq_true (unsigned.mpr reaches)),BitVec.toNat_ofNat]
  · rw [if_neg reaches,if_neg fun below => reaches (unsigned.mp (of_decide_eq_true below)),BitVec.toNat_ofNat]

theorem run_skip (instruction : Instruction) (rest : List Instruction) (skip : Nat) (acc : Word) :
    run load (instruction::rest) (skip + 1) acc = run load rest skip acc := rfl

theorem word_exact (word : Word) (value : Nat) (small : value < 2 ^ 32) : word = BitVec.ofNat 32 value ↔ word.toNat = value := by
  rw [BitVec.toNat_eq,BitVec.toNat_ofNat,Nat.mod_eq_of_lt small]

-- A number of the table ends in the refusal, and every other falls through to what follows.
theorem run_denied (numbers : List Nat) (small : ∀ nr ∈ numbers, nr < 2 ^ 32) (rest : List Instruction) (acc : Word) :
    run load (assembled (numbers.flatMap fun nr => [(JEQ_K,0,1,nr),deny]) ++ rest) 0 acc =
      if acc.toNat ∈ numbers then some (BitVec.ofNat 32 RET_EACCES) else run load rest 0 acc := by
  induction numbers with
  | nil => rfl
  | cons nr more ih =>
    have first : run load (assembled ((nr::more).flatMap fun nr => [(JEQ_K,0,1,nr),deny]) ++ rest) 0 acc =
        if acc = BitVec.ofNat 32 nr then some (BitVec.ofNat 32 RET_EACCES)
        else run load (assembled (more.flatMap fun nr => [(JEQ_K,0,1,nr),deny]) ++ rest) 0 acc := run_jeq 0 1 nr _ acc
    rw [first,ih fun other among => small other (List.mem_cons_of_mem nr among)]
    by_cases same : acc = BitVec.ofNat 32 nr
    · rw [if_pos same,if_pos (List.mem_cons.mpr (Or.inl ((word_exact acc nr (small nr List.mem_cons_self)).mp same)))]
    · rw [if_neg same]
      have apart : acc.toNat ≠ nr := mt (word_exact acc nr (small nr List.mem_cons_self)).mpr same
      simp only [List.mem_cons,apart,false_or]

theorem family_exact (data : SeccompData) : low (data.args 0) = BitVec.ofNat 32 AF_UNIX ↔ (data.args 0).toNat % 2 ^ 32 = 1 := by
  rw [word_exact _ AF_UNIX (by decide),low,BitVec.toNat_setWidth]
  rfl

theorem type_exact (data : SeccompData) :
    low (data.args 1) &&& BitVec.ofNat 32 SOCK_TYPE_MASK = BitVec.ofNat 32 SOCK_STREAM ↔ (data.args 1).toNat % 16 = 1 := by
  have masked : (low (data.args 1) &&& BitVec.ofNat 32 SOCK_TYPE_MASK).toNat = (data.args 1).toNat % 16 := by
    rw [BitVec.toNat_and,low,BitVec.toNat_setWidth,BitVec.toNat_ofNat]
    have cut := Nat.and_two_pow_sub_one_eq_mod ((data.args 1).toNat % 2 ^ 32) 4
    have mask : SOCK_TYPE_MASK % 2 ^ 32 = 2 ^ 4 - 1 := rfl
    rw [mask,cut]
    omega
  rw [word_exact _ SOCK_STREAM (by decide),masked]
  rfl

-- The end of the program: a socketpair that is no stream pair is refused, everything else allowed.
theorem run_pair (data : SeccompData) (number : Nat) (small : number < 2 ^ 32) (acc : Word) :
    run data.load (assembled [(JEQ_K,0,7,number),(LD_W_ABS,0,0,SECCOMP_DATA_ARG0),(JEQ_K,0,4,AF_UNIX),(LD_W_ABS,0,0,SECCOMP_DATA_ARG1),
        (AND_K,0,0,SOCK_TYPE_MASK),(JEQ_K,0,1,SOCK_STREAM),(RET_K,0,0,RET_ALLOW),deny,(RET_K,0,0,RET_ALLOW)]) 0 acc =
      if acc.toNat = number ∧ ¬ streamPair data then some (BitVec.ofNat 32 RET_EACCES) else some (BitVec.ofNat 32 RET_ALLOW) := by
  by_cases called : acc = BitVec.ofNat 32 number
  · have same := (word_exact acc number small).mp called
    refine (run_jeq 0 7 number _ acc).trans ((if_pos called).trans ?_)
    refine (run_jeq 0 4 AF_UNIX _ (low (data.args 0))).trans ?_
    by_cases family : low (data.args 0) = BitVec.ofNat 32 AF_UNIX
    · refine (if_pos family).trans ((run_jeq 0 1 SOCK_STREAM _ (low (data.args 1) &&& BitVec.ofNat 32 SOCK_TYPE_MASK)).trans ?_)
      by_cases type : low (data.args 1) &&& BitVec.ofNat 32 SOCK_TYPE_MASK = BitVec.ofNat 32 SOCK_STREAM
      · have pair : streamPair data := ⟨(family_exact data).mp family,(type_exact data).mp type⟩
        rw [if_pos type,if_neg fun refused => refused.2 pair]
        rfl
      · have apart : ¬ streamPair data := fun pair => type ((type_exact data).mpr pair.2)
        rw [if_neg type,if_pos ⟨same,apart⟩]
        rfl
    · have apart : ¬ streamPair data := fun pair => family ((family_exact data).mpr pair.1)
      rw [if_neg family,if_pos ⟨same,apart⟩]
      rfl
  · refine (run_jeq 0 7 number _ acc).trans ((if_neg called).trans ?_)
    rw [if_neg fun refused => called ((word_exact acc number small).mpr refused.1)]
    rfl

theorem run_native (arch : Arch) (data : SeccompData) :
    run data.load (assembled ((DENIED_NR arch).flatMap fun nr => [(JEQ_K,0,1,nr),deny]) ++
      assembled [(JEQ_K,0,7,SOCKETPAIR_NR arch),(LD_W_ABS,0,0,SECCOMP_DATA_ARG0),(JEQ_K,0,4,AF_UNIX),(LD_W_ABS,0,0,SECCOMP_DATA_ARG1),
        (AND_K,0,0,SOCK_TYPE_MASK),(JEQ_K,0,1,SOCK_STREAM),(RET_K,0,0,RET_ALLOW),deny,(RET_K,0,0,RET_ALLOW)]) 0 data.nr =
      if data.nr.toNat ∈ DENIED_NR arch ∨ (data.nr.toNat = SOCKETPAIR_NR arch ∧ ¬ streamPair data) then some (BitVec.ofNat 32 RET_EACCES)
      else some (BitVec.ofNat 32 RET_ALLOW) := by
  have numbers : ∀ nr ∈ DENIED_NR arch, nr < 2 ^ 32 := by cases arch <;> decide
  have number : SOCKETPAIR_NR arch < 2 ^ 32 := by cases arch <;> decide
  rw [run_denied _ numbers,run_pair data _ number]
  by_cases banned : data.nr.toNat ∈ DENIED_NR arch
  · rw [if_pos banned,if_pos (Or.inl banned)]
  · rw [if_neg banned]
    simp only [banned,false_or]

theorem run_prog (arch : Arch) (data : SeccompData) : run data.load (assembled (prog arch)) 0 0 = some (verdict arch data) := by
  have known : AUDIT_ARCH arch < 2 ^ 32 := by cases arch <;> decide
  unfold verdict
  by_cases native : data.arch.toNat = AUDIT_ARCH arch
  · rw [if_neg (not_not.mpr native)]
    have entered : run data.load (assembled (prog arch)) 0 0 = run data.load ((assembled (prog arch)).drop 4) 0 data.nr :=
      (run_jeq 1 0 (AUDIT_ARCH arch) _ data.arch).trans (if_pos ((word_exact _ _ known).mpr native))
    rw [entered]
    cases arch with
    | arm64 =>
      refine (run_native .arm64 data).trans ?_
      simp only [refused_exact]
      split
      · next refused => rw [if_pos (Or.inr refused)]
      · next allowed => rw [if_neg (by simpa using allowed)]
    | x64 =>
      refine (run_jge 0 1 X32_SYSCALL_BIT _ data.nr).trans ?_
      by_cases wide : X32_SYSCALL_BIT % 2 ^ 32 ≤ data.nr.toNat
      · rw [if_pos wide,if_pos ((refused_exact .x64 data).mpr (Or.inl ⟨rfl,wide⟩))]
        rfl
      · rw [if_neg wide]
        refine (run_native .x64 data).trans ?_
        have narrow : ¬ X32_SYSCALL_BIT ≤ data.nr.toNat := wide
        simp only [refused_exact,narrow,and_false,false_or]
        split <;> rfl
  · rw [if_pos native]
    exact (run_jeq 1 0 (AUDIT_ARCH arch) _ data.arch).trans (if_neg (mt (word_exact _ _ known).mp native))

theorem prog_attached (arch : Arch) : attached insideData (assembled (prog arch)) = true := by
  cases arch <;> decide

end

-- The filter of an architecture is a program the kernel takes, and whatever call is made under it ends in the verdict.
theorem filter_exact :
    (∀ arch : Arch, ∃ bytes program, socketBanFilter arch.name = .ok bytes ∧ readProgram bytes = some program ∧
      attached insideData program = true ∧ ∀ data : SeccompData, run data.load program 0 0 = some (verdict arch data)) ∧
    ∀ name, (∀ arch : Arch, name ≠ arch.name) → socketBanFilter name = .error ("no seccomp socket ban for architecture " ++ name) := by
  constructor
  · intro arch
    refine ⟨_,assembled (prog arch),?_,readProgram_written (prog arch),prog_attached arch,run_prog arch⟩
    cases arch <;> rfl
  · intro name other
    have unknown : archOf name = none := by
      unfold archOf
      split
      · exact absurd rfl (other .x64)
      · exact absurd rfl (other .arm64)
      · rfl
    rw [socketBanFilter,unknown]

end Zveltio.SocketBan

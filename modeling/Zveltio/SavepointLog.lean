import Mathlib.Data.List.Pairwise
namespace Zveltio.SavepointLog

-- A statement with the savepoints it was made in, those open around it as it ran and what it wrote. A savepoint goes by a number of its own.
structure Entry (ω : Type) where
  made : List Nat
  around : List Nat
  writes : List ω

section
variable {ω : Type}

def standing (log : List (Entry ω)) (undone : List Nat) : List ω :=
  (log.filter fun entry => entry.made.all fun node => node ∉ undone).flatMap Entry.writes

-- opened has the savepoints open now, newest first, outer what stood when each was set.
structure Ledger (log : List (Entry ω)) (opened undone : List Nat) (count : Nat) (told : List ω) (outer : List (List ω)) : Prop where
  named : ∀ entry ∈ log, ∀ node ∈ entry.made, node < count
  gone : ∀ node ∈ undone, node < count
  fresh : ∀ node ∈ opened, node < count ∧ node ∉ undone
  cut : opened.Pairwise fun inner around => inner ≠ around ∧ ∀ entry ∈ log, inner ∈ entry.made → around ∈ entry.made
  told : told = standing log undone
  outer : outer = opened.map fun node => standing log (node::undone)

variable {log : List (Entry ω)} {opened undone : List Nat} {count : Nat} {told : List ω} {outer : List (List ω)}

theorem standing_congr {first second : List Nat}
    (same : ∀ entry ∈ log, (∀ node ∈ entry.made, node ∉ first) ↔ ∀ node ∈ entry.made, node ∉ second) : standing log first = standing log second := by
  unfold standing
  congr 1
  refine List.filter_congr fun entry member => ?_
  rw [Bool.eq_iff_iff,List.all_eq_true,List.all_eq_true]
  simpa only [decide_eq_true_eq] using same entry member

theorem standing_append (last : List (Entry ω)) (undone : List Nat) : standing (log ++ last) undone = standing log undone ++ standing last undone := by
  unfold standing
  rw [List.filter_append,List.flatMap_append]

theorem standing_one (entry : Entry ω) (undone : List Nat) :
    standing [entry] undone = if (∀ node ∈ entry.made, node ∉ undone) then entry.writes else [] := by
  unfold standing
  by_cases clear : ∀ node ∈ entry.made, node ∉ undone
  · rw [if_pos clear]
    simp only [List.filter_cons,List.filter_nil,List.all_eq_true,decide_eq_true_eq,if_pos clear,List.flatMap_singleton]
  · rw [if_neg clear]
    simp only [List.filter_cons,List.filter_nil,List.all_eq_true,decide_eq_true_eq,if_neg clear,List.flatMap_nil]

theorem empty_ledger : Ledger ([] : List (Entry ω)) [] [] 0 [] [] :=
  ⟨fun _ wrong => absurd wrong List.not_mem_nil,fun _ wrong => absurd wrong List.not_mem_nil,fun _ wrong => absurd wrong List.not_mem_nil,
    List.Pairwise.nil,rfl,rfl⟩

theorem add_ledger (ledger : Ledger log opened undone count told outer) (around : List Nat) (writes : List ω) :
    Ledger (log ++ [⟨opened,around,writes⟩]) opened undone count (told ++ writes) outer := by
  refine ⟨fun entry member => ?_,ledger.gone,ledger.fresh,?_,?_,?_⟩
  · rcases List.mem_append.mp member with old | new
    · exact ledger.named entry old
    · cases List.mem_singleton.mp new
      exact fun node inside => (ledger.fresh node inside).1
  · refine List.Pairwise.imp_of_mem (fun {inner around} _ there apart => ⟨apart.1,fun entry member inside => ?_⟩) ledger.cut
    rcases List.mem_append.mp member with old | new
    · exact apart.2 entry old inside
    · cases List.mem_singleton.mp new
      exact there
  · rw [standing_append,← ledger.told,standing_one,if_pos fun node inside => (ledger.fresh node inside).2]
  · rw [ledger.outer]
    refine List.map_congr_left fun node inside => ?_
    rw [standing_append,standing_one,if_neg fun clear => clear node inside (List.mem_cons_self ..),List.append_nil]

theorem next_ledger (ledger : Ledger log opened undone count told outer) : Ledger log opened undone (count + 1) told outer :=
  ⟨fun entry member node inside => Nat.lt_succ_of_lt (ledger.named entry member node inside),fun node inside => Nat.lt_succ_of_lt (ledger.gone node inside),
    fun node inside => ⟨Nat.lt_succ_of_lt (ledger.fresh node inside).1,(ledger.fresh node inside).2⟩,ledger.cut,ledger.told,ledger.outer⟩

theorem open_ledger (ledger : Ledger log opened undone count told outer) : Ledger log (count::opened) undone (count + 1) told (told::outer) := by
  have later := next_ledger ledger
  refine ⟨later.named,later.gone,fun node inside => ?_,?_,later.told,?_⟩
  · rcases List.mem_cons.mp inside with same | old
    · subst same
      exact ⟨Nat.lt_succ_self _,fun wrong => absurd (ledger.gone _ wrong) (Nat.lt_irrefl _)⟩
    · exact later.fresh node old
  · refine List.pairwise_cons.mpr ⟨fun around there => ⟨?_,fun entry member wrong => ?_⟩,later.cut⟩
    · intro same
      subst same
      exact absurd (ledger.fresh _ there).1 (Nat.lt_irrefl _)
    · exact absurd (ledger.named entry member _ wrong) (Nat.lt_irrefl _)
  · rw [List.map_cons,← ledger.outer]
    congr 1
    rw [ledger.told]
    apply standing_congr
    intro entry member
    refine ⟨fun apart node inside wrong => ?_,fun apart node inside wrong => apart node inside (List.mem_cons_of_mem _ wrong)⟩
    rcases List.mem_cons.mp wrong with same | gone
    · subst same
      exact absurd (ledger.named entry member _ inside) (Nat.lt_irrefl _)
    · exact apart node inside gone

theorem release_ledger {node : Nat} (ledger : Ledger log (node::opened) undone count told outer) : Ledger log opened undone count told outer.tail :=
  ⟨ledger.named,ledger.gone,fun other inside => ledger.fresh other (List.mem_cons_of_mem _ inside),(List.pairwise_cons.mp ledger.cut).2,ledger.told,by
    rw [ledger.outer]
    rfl⟩

theorem undo_ledger {nodes rest : List Nat} (ledger : Ledger log (nodes ++ rest) undone count told outer) (any : nodes ≠ []) :
    ∃ saved later, outer.drop (nodes.length - 1) = saved::later ∧ Ledger log rest (nodes ++ undone) count saved later := by
  obtain ⟨front,last,shape⟩ := (List.eq_nil_or_concat nodes).resolve_left any
  subst shape
  rw [List.concat_eq_append] at ledger ⊢
  obtain ⟨within,beyond,apart⟩ := List.pairwise_append.mp ledger.cut
  have together : standing log (last::undone) = standing log (front ++ [last] ++ undone) := by
    refine standing_congr fun entry member => ⟨fun clear node inside wrong => ?_,fun clear node inside wrong => clear node inside (by simp at wrong ⊢; grind)⟩
    simp only [List.append_assoc,List.mem_append,List.singleton_append,List.mem_cons] at wrong
    rcases wrong with nested | rest
    · exact clear last (((List.pairwise_append.mp within).2.2 node nested last (List.mem_singleton_self _)).2 entry member inside) (List.mem_cons_self ..)
    · exact clear node inside (List.mem_cons.mpr rest)
  refine ⟨standing log (last::undone),rest.map fun node => standing log (node::undone),?_,ledger.named,fun node inside => ?_,fun node inside => ?_,beyond,together,?_⟩
  · rw [ledger.outer]
    simp
  · rcases List.mem_append.mp inside with opened | gone
    · exact (ledger.fresh node (List.mem_append_left _ opened)).1
    · exact ledger.gone node gone
  · obtain ⟨below,kept⟩ := ledger.fresh node (List.mem_append_right _ inside)
    refine ⟨below,fun wrong => ?_⟩
    rcases List.mem_append.mp wrong with opened | gone
    · exact (apart node opened node inside).1 rfl
    · exact kept gone
  · refine List.map_congr_left fun node inside => standing_congr fun entry member => ⟨fun clear other within wrong => ?_,fun clear other within wrong => ?_⟩
    · rcases List.mem_cons.mp wrong with same | undone
      · exact clear other within (by rw [same]; exact List.mem_cons_self ..)
      · rcases List.mem_append.mp undone with opened | gone
        · exact clear node ((apart other opened node inside).2 entry member within) (List.mem_cons_self ..)
        · exact clear other within (List.mem_cons_of_mem _ gone)
    · rcases List.mem_cons.mp wrong with same | undone
      · exact clear other within (by rw [same]; exact List.mem_cons_self ..)
      · exact clear other within (List.mem_cons_of_mem _ (List.mem_append_right _ undone))

end

end Zveltio.SavepointLog

/-
The run of the method, step by step. A point of the run lies between two searches or inside one: there
a row has just joined the tree, or a raise has just made the nearest column tight. A step starts a
search, raises, adds the nearest column with its row, or moves the rows along the pointers from a
column without a row. The run is deterministic, it leads to the optimum, and its points are sound.
-/
import LinearAssignment.Proofs.Optimum
import Mathlib.Logic.Relation

namespace LinearAssignment

variable {n : Nat}

/-- A point of the run: the state that the last search left, the rows that still wait for a search, and
the search under way with its root, if there is one. -/
inductive Point (n : Nat) where
  /-- Between searches. -/
  | between (s : Progress n) (todo : List (Fin n))
  /-- In a search from `root` whose tree has just got a row. -/
  | grown (s : Progress n) (root : Fin n) (todo : List (Fin n)) (t : Search n)
  /-- In a search from `root` that has just raised its tree to reach column `j`. -/
  | raised (s : Progress n) (root : Fin n) (todo : List (Fin n)) (t : Search n) (j : Fin n)

namespace Point

def potentials : Point n → Potentials n
  | between s _ => s.potentials
  | grown _ _ _ t => t.potentials
  | raised _ _ _ t _ => t.potentials

def matching : Point n → Matching n
  | between s _ => s.matching
  | grown s root _ _ => s.matching.seat root
  | raised s root _ _ _ => s.matching.seat root

/-- The tree of the search under way. -/
def tree? : Point n → Option (SearchTree n)
  | between _ _ => none
  | grown _ _ _ t => some t.tree
  | raised _ _ _ t _ => some t.tree

/-- The start of the run: the rows that the greedy matching leaves free wait in ascending order. -/
def first (c : Costs n) : Point n :=
  .between (Progress.initial c) (Progress.initial c).matching.freeRows

end Point

/-- One step of the run. -/
inductive Step (c : Costs n) : Point n → Point n → Prop
  | start {s : Progress n} {root : Fin n} {todo : List (Fin n)} :
      Step c (.between s (root :: todo)) (.grown s root todo (.start c s.potentials root))
  | raise {s : Progress n} {root : Fin n} {todo : List (Fin n)} {t : Search n} {j : Fin n}
      (hj : t.tree.nearest? = some j) :
      Step c (.grown s root todo t) (.raised s root todo (t.raise (t.tree.slack.get j)) j)
  | absorb {s : Progress n} {root : Fin n} {todo : List (Fin n)} {t : Search n} {j r : Fin n}
      (hr : s.matching.rowOf.get j = some r) :
      Step c (.raised s root todo t j) (.grown s root todo (t.absorb c j r))
  | flip {s : Progress n} {root : Fin n} {todo : List (Fin n)} {t : Search n} {j : Fin n}
      (hj : s.matching.rowOf.get j = none) :
      Step c (.raised s root todo t j) (.between (s.flip root j t) todo)

/-- Steps one after the other. -/
abbrev Steps (c : Costs n) : Point n → Point n → Prop := Relation.ReflTransGen (Step c)

/-- The run comes through a point. -/
def Point.Visited (c : Costs n) (p : Point n) : Prop := Steps c (first c) p

variable {c : Costs n} {p q : Point n}

theorem Step.deterministic {q' : Point n} (h : Step c p q) (h' : Step c p q') : q = q' := by
  cases h with
  | start => cases h'; rfl
  | raise hj =>
    cases h' with
    | raise hj' => cases Option.some.inj (hj.symm.trans hj'); rfl
  | absorb hr =>
    cases h' with
    | absorb hr' => cases Option.some.inj (hr.symm.trans hr'); rfl
    | flip hj => rw [hj] at hr; cases hr
  | flip hj =>
    cases h' with
    | absorb hr => rw [hj] at hr; cases hr
    | flip => rfl

/-! ## Sound points -/

/-- A sound state whose free rows are those that wait. -/
structure Progress.Awaits (c : Costs n) (s : Progress n) (todo : List (Fin n)) : Prop where
  sound : s.Sound c
  nodup : todo.Nodup
  free : ∀ i, i ∈ todo ↔ i ∉ s.matching.matchedRows

/-- What holds at every point of the run: the state of the last search is sound, and the search under
way keeps its invariant. -/
def Point.Sound (c : Costs n) : Point n → Prop
  | between s todo => s.Awaits c todo
  | grown s root todo t => s.Awaits c (root :: todo) ∧ t.Inv c (s.matching.seat root)
  | raised s root todo t j => s.Awaits c (root :: todo) ∧ t.Inv c (s.matching.seat root) ∧
      t.tree.cols.get j = false ∧ t.tree.slack.get j = 0

namespace Progress

variable {s : Progress n} {root : Fin n} {todo : List (Fin n)}

theorem Awaits.root_free (h : s.Awaits c (root :: todo)) : root ∉ s.matching.matchedRows :=
  (h.free root).1 List.mem_cons_self

theorem Awaits.seated (h : s.Awaits c (root :: todo)) : (s.matching.seat root).Seated root :=
  Matching.seat_seated h.sound.consistent (Matching.not_mem_matchedRows.1 h.root_free)

theorem Awaits.flip (h : s.Awaits c (root :: todo)) {j : Fin n} {t : Search n}
    (hf : Search.Found c (s.matching.seat root) j t) : (s.flip root j t).Awaits c todo := by
  obtain ⟨hsound, hrows, -⟩ := h.sound.flip h.root_free hf
  obtain ⟨hroot, hnodup⟩ := List.nodup_cons.1 h.nodup
  refine ⟨hsound, hnodup, fun i => ?_⟩
  rw [hrows, Finset.mem_insert, not_or, ← h.free i, List.mem_cons]
  constructor
  · intro hi
    refine ⟨?_, .inr hi⟩
    rintro rfl
    exact hroot hi
  · rintro ⟨hne, rfl | hi⟩
    · exact absurd rfl hne
    · exact hi

theorem initial_awaits (c : Costs n) : (initial c).Awaits c (initial c).matching.freeRows :=
  ⟨initial_sound c, nodup_freeRows _, fun _ => Matching.mem_freeRows⟩

end Progress

theorem Step.sound (h : Step c p q) (hp : p.Sound c) : q.Sound c := by
  cases h with
  | start =>
    exact ⟨hp, Search.start_inv hp.seated ⟨hp.sound.supports.feasible, hp.sound.supports.tight⟩⟩
  | raise hj =>
    obtain ⟨hs, hi⟩ := hp
    exact ⟨hs, hi.raise_nearest hs.seated hj⟩
  | absorb hr =>
    obtain ⟨hs, hi, hout, h0⟩ := hp
    exact ⟨hs, hi.absorb hout hr h0⟩
  | flip hj =>
    obtain ⟨hs, hi, -, h0⟩ := hp
    exact hs.flip ⟨hi, hj, h0⟩

theorem Steps.sound (h : Steps c p q) (hp : p.Sound c) : q.Sound c := by
  induction h with
  | refl => exact hp
  | tail _ hs ih => exact hs.sound ih

theorem Point.Visited.sound (h : p.Visited c) : p.Sound c :=
  Steps.sound h (Progress.initial_awaits c)

/-- The potentials at a sound point support the matching there. -/
theorem Point.Sound.supports (h : p.Sound c) : p.potentials.Supports c p.matching := by
  cases p with
  | between s todo => exact h.sound.supports
  | grown s root todo t => exact h.2.supports
  | raised s root todo t j => exact h.2.1.supports

/-! ## The way to the optimum -/

/-- The run goes through the rounds of a search. -/
theorem grow_steps {s : Progress n} {root j : Fin n} {todo : List (Fin n)} {found : Search n}
    (t : Search n) (hg : t.grow c (s.matching.seat root) = some (j, found)) :
    Steps c (.grown s root todo t) (.raised s root todo found j) := by
  fun_induction Search.grow c (s.matching.seat root) t with
  | case1 t hnone => cases hg
  | case2 t k hk raised hfree =>
    obtain ⟨rfl, hfound⟩ := Prod.mk.inj (Option.some.inj hg)
    rw [← hfound]
    exact .single (.raise hk)
  | case3 t k hk raised r hr ih => exact .head (.raise hk) (.head (.absorb hr) (ih hg))

theorem augment_steps {s : Progress n} {root : Fin n} {todo : List (Fin n)}
    (h : s.Awaits c (root :: todo)) :
    Steps c (.between s (root :: todo)) (.between (s.augment c root) todo) := by
  obtain ⟨j, found, hg, hf⟩ := h.sound.exists_found h.root_free
  rw [Progress.augment_eq_flip hg]
  exact .head .start ((grow_steps _ hg).tail (.flip hf.free))

theorem foldl_augment_steps :
    ∀ (todo : List (Fin n)) {s : Progress n}, s.Awaits c todo →
      Steps c (.between s todo) (.between (todo.foldl (Progress.augment c) s) [])
  | [], _, _ => .refl
  | root :: todo, s, h => by
    have hsteps := augment_steps h
    have hawaits : (s.augment c root).Awaits c todo := hsteps.sound (p := .between s (root :: todo)) h
    exact hsteps.trans (foldl_augment_steps todo hawaits)

/-- The run ends, with the potentials and the matching of the optimum. -/
theorem exists_visited_optimum (c : Costs n) : ∃ last : Progress n, (Point.between last []).Visited c ∧
    last.potentials = (optimum c).potentials ∧ last.matching = (optimum c).matching :=
  ⟨_, foldl_augment_steps _ (Progress.initial_awaits c), rfl, rfl⟩

end LinearAssignment

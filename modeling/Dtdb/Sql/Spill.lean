import Dtdb.Sql.Sorting

/-! # Spilled runs

A sort that outgrows its memory writes sorted runs, which a heap then merges.  A written run reads
back unchanged, so a run is the list of its entries. -/

namespace Dtdb.Sql

open Dtdb.Lib Dtdb.Storage Dtdb.Relational List

variable {A : Type} (c : A → A → Ordering)

/-- The heap hands out a greatest entry, so the order is reversed. -/
def heapOrder (a b : A × Nat) : Ordering := (c a.1 b.1).swap

def maxFanin : Nat := 64

instance [Std.TransCmp c] : Std.TransCmp (heapOrder c) := by
  have h : heapOrder c = fun a b => c b.1 a.1 := by
    funext a b
    exact Std.OrientedCmp.eq_swap.symm
  rw [h]
  exact transCmp_on Prod.fst fun a b => c b a

variable {c} {H : Heap (heapOrder c)}

structure KWayMerge (H : Heap (heapOrder c)) where
  heap : H.State
  runs : List (List A)
  fanin : runs.length ≤ maxFanin

namespace KWayMerge

/-- The heap with the first entry of each run. -/
def primed (H : Heap (heapOrder c)) : Nat → List (List A) → H.State
  | _, [] => H.empty
  | i, [] :: runs => primed H (i + 1) runs
  | i, (a :: _) :: runs => H.push (primed H (i + 1) runs) (a, i)

def prime (H : Heap (heapOrder c)) (runs : List (List A)) (h : runs.length ≤ maxFanin) :
    KWayMerge H :=
  ⟨primed H 0 runs, runs.map tail, by rwa [length_map]⟩

def next (m : KWayMerge H) : Option (A × KWayMerge H) :=
  (H.pop m.heap).map fun (e, heap) => (e.1, match m.runs[e.2]? with
    | some (a :: run) =>
      ⟨H.push heap (a, e.2), m.runs.set e.2 run, by rw [length_set]; exact m.fanin⟩
    | _ => { m with heap })

def drain : Nat → KWayMerge H → List A
  | 0, _ => []
  | n + 1, m => match m.next with
    | none => []
    | some (a, m) => a :: drain n m

def pending (m : KWayMerge H) : List A := (H.items m.heap).map Prod.fst ++ m.runs.flatten

def drainAll (m : KWayMerge H) : List A := drain m.pending.length m

def mergePass (H : Heap (heapOrder c)) : List (List A) → List (List A)
  | [] => []
  | [run] => [run]
  | run :: run' :: runs =>
    (prime H ((run :: run' :: runs).take maxFanin) (length_take_le ..)).drainAll ::
      mergePass H ((run :: run' :: runs).drop maxFanin)
termination_by runs => runs.length
decreasing_by simp [maxFanin]; omega

theorem length_mergePass (H : Heap (heapOrder c)) (runs : List (List A)) :
    (mergePass H runs).length * maxFanin < runs.length + maxFanin := by
  induction runs using mergePass.induct with
  | case1 => simp [mergePass, maxFanin]
  | case2 => simp [mergePass]
  | case3 run run' runs ih =>
    rw [length_drop] at ih
    simp only [mergePass, length_cons, maxFanin] at ih ⊢
    omega

def new (H : Heap (heapOrder c)) (runs : List (List A)) : KWayMerge H :=
  if h : runs.length ≤ maxFanin then prime H runs h else new H (mergePass H runs)
termination_by runs.length
decreasing_by
  have := length_mergePass H runs
  simp only [maxFanin] at this h
  omega

/-! ## What a merge hands out -/

/-- Everything left in a run comes after an entry of that run in the heap. -/
structure Ready (m : KWayMerge H) : Prop where
  arranged : ∀ run ∈ m.runs, Arranged c run
  covered : ∀ i run, m.runs[i]? = some run → ∀ b ∈ run, ∃ a, (a, i) ∈ H.items m.heap ∧ (c a b).isLE

variable {runs : List (List A)}

theorem perm_set {i : Nat} {a : A} {run : List A}
    (h : runs[i]? = some (a :: run)) : runs.flatten.Perm (a :: (runs.set i run).flatten) := by
  induction runs generalizing i with
  | nil => simp at h
  | cons r runs ih =>
    cases i with
    | zero => simp_all
    | succ i => simpa using ((ih h).append_left r).trans perm_middle

variable {m : KWayMerge H} [Std.TransCmp c]

theorem Ready.next (h : m.Ready) {a : A} {m' : KWayMerge H} (hnext : m.next = some (a, m')) :
    m'.Ready ∧ m.pending.Perm (a :: m'.pending) ∧ ∀ b ∈ m.pending, (c a b).isLE := by
  obtain ⟨⟨⟨a, i⟩, heap⟩, hpop, he⟩ := Option.map_eq_some_iff.1 hnext
  obtain ⟨rfl, hm'⟩ := Prod.mk.inj he
  have hperm := H.perm_pop _ _ _ hpop
  have htop : ∀ e ∈ H.items m.heap, (c a e.1).isLE := fun e he => by
    have := H.pop_greatest _ _ _ hpop e he
    rwa [heapOrder, ← Std.OrientedCmp.eq_swap] at this
  -- the heap entry of another run stays
  have hother : ∀ {j x}, j ≠ i → (x, j) ∈ H.items m.heap → (x, j) ∈ H.items heap := by
    intro j x hj hx
    simpa [hj] using hperm.mem_iff.1 hx
  have hheap := (hperm.map Prod.fst).append_right m.runs.flatten
  refine ⟨?_, ?_, fun b hb => ?_⟩
  · subst hm'
    split
    · next x run hrun =>
      have hsorted := pairwise_cons.1 (h.arranged _ (mem_of_getElem? hrun))
      have hpush := fun y => (H.perm_push heap (x, i)).mem_iff (a := y)
      refine ⟨fun r hr => ?_, fun j r hr b hb => ?_⟩
      · rcases mem_or_eq_of_mem_set hr with hr | rfl
        · exact h.arranged r hr
        · exact hsorted.2
      · by_cases hj : j = i
        · subst hj
          rw [getElem?_set_self (List.getElem?_eq_some_iff.1 hrun).1] at hr
          cases hr
          exact ⟨x, (hpush _).2 mem_cons_self, hsorted.1 b hb⟩
        · rw [getElem?_set_ne (Ne.symm hj)] at hr
          obtain ⟨y, hy, hle⟩ := h.covered j r hr b hb
          exact ⟨y, (hpush _).2 (mem_cons_of_mem _ (hother hj hy)), hle⟩
    · next hrun =>
      refine ⟨h.arranged, fun j r hr b hb => ?_⟩
      obtain ⟨x, hx, hle⟩ := h.covered j r hr b hb
      refine ⟨x, hother (fun hj => ?_) hx, hle⟩
      subst hj
      cases r with
      | nil => cases hb
      | cons y r => exact hrun y r hr
  · subst hm'
    split
    · next x run hrun =>
      refine hheap.trans (.cons a (((perm_set hrun).append_left _).trans (perm_middle.trans ?_)))
      exact ((H.perm_push heap (x, i)).symm.map Prod.fst).append_right _
    · exact hheap
  · rcases mem_append.1 hb with hb | hb
    · obtain ⟨e, he, rfl⟩ := mem_map.1 hb
      exact htop e he
    · obtain ⟨run, hrun, hb⟩ := mem_flatten.1 hb
      obtain ⟨j, hj⟩ := mem_iff_getElem?.1 hrun
      obtain ⟨x, hx, hle⟩ := h.covered j run hj b hb
      exact Std.TransCmp.isLE_trans (htop _ hx) hle

theorem Ready.drain {n : Nat} (h : m.Ready) (hn : m.pending.length = n) :
    (KWayMerge.drain n m).Perm m.pending ∧ Arranged c (KWayMerge.drain n m) := by
  induction n generalizing m with
  | zero => exact ⟨by rw [eq_nil_of_length_eq_zero hn]; rfl, .nil⟩
  | succ n ih =>
    unfold KWayMerge.drain
    split
    · next hnone =>
      -- an empty heap has no run left
      have hnil := H.pop_none _ (Option.map_eq_none_iff.1 hnone)
      obtain ⟨b, hb⟩ := exists_mem_of_length_pos (l := m.pending) (by omega)
      simp only [pending, hnil, map_nil, nil_append, mem_flatten] at hb
      obtain ⟨run, hrun, hb⟩ := hb
      obtain ⟨i, hi⟩ := mem_iff_getElem?.1 hrun
      obtain ⟨a, ha, -⟩ := h.covered i run hi b hb
      simp [hnil] at ha
    · next a m' hnext =>
      obtain ⟨hready, hperm, hle⟩ := h.next hnext
      obtain ⟨hrest, hsorted⟩ := ih hready (by simpa [hn] using hperm.length_eq.symm)
      have hall := (hrest.cons a).trans hperm.symm
      exact ⟨hall, pairwise_cons.2 ⟨fun b hb => hle b (hall.mem_iff.1 (.tail a hb)), hsorted⟩⟩

omit [Std.TransCmp c] in
theorem primed_spec (i : Nat) (h : ∀ run ∈ runs, Arranged c run) :
    ((H.items (primed H i runs)).map Prod.fst ++ (runs.map tail).flatten).Perm runs.flatten ∧
      ∀ j run, runs[j]? = some run → ∀ b ∈ run.tail,
        ∃ a, (a, i + j) ∈ H.items (primed H i runs) ∧ (c a b).isLE := by
  induction runs generalizing i with
  | nil => simp [primed, H.items_empty]
  | cons r runs ih =>
    obtain ⟨hr, hall⟩ := forall_mem_cons.1 h
    obtain ⟨hperm, hcovered⟩ := ih (i + 1) hall
    cases r with
    | nil =>
      refine ⟨by simpa [primed] using hperm, fun j run hj b hb => ?_⟩
      cases j with
      | zero =>
        cases hj
        cases hb
      | succ j => simpa [primed, Nat.succ_add_eq_add_succ] using hcovered j run hj b hb
    | cons x r =>
      have hpush := H.perm_push (primed H (i + 1) runs) (x, i)
      refine ⟨?_, fun j run hj b hb => ?_⟩
      · refine ((hpush.map Prod.fst).append_right _).trans (.cons x ?_)
        exact perm_append_comm_assoc .. |>.trans (hperm.append_left r)
      · cases j with
        | zero =>
          cases hj
          exact ⟨x, hpush.mem_iff.2 mem_cons_self, (pairwise_cons.1 hr).1 b hb⟩
        | succ j =>
          obtain ⟨a, ha, hle⟩ := hcovered j run hj b hb
          rw [Nat.succ_add_eq_add_succ] at ha
          exact ⟨a, hpush.mem_iff.2 (.tail _ ha), hle⟩

theorem drainAll_prime (hfan : runs.length ≤ maxFanin)
    (h : ∀ run ∈ runs, Arranged c run) :
    (prime H runs hfan).drainAll.Perm runs.flatten ∧ Arranged c (prime H runs hfan).drainAll := by
  obtain ⟨hheads, hcovered⟩ := primed_spec 0 h
  have hready : (prime H runs hfan).Ready := by
    refine ⟨fun run hrun => ?_, fun i run hi b hb => ?_⟩
    · obtain ⟨r, hr, rfl⟩ := mem_map.1 hrun
      exact (h r hr).sublist (tail_sublist r)
    · obtain ⟨r, hr, rfl⟩ := Option.map_eq_some_iff.1 (getElem?_map .. ▸ hi)
      simpa [prime] using hcovered i r hr b hb
  obtain ⟨hperm, hsorted⟩ := hready.drain rfl
  exact ⟨hperm.trans hheads, hsorted⟩

theorem mergePass_spec (H : Heap (heapOrder c)) (h : ∀ run ∈ runs, Arranged c run) :
    (mergePass H runs).flatten.Perm runs.flatten ∧ ∀ run ∈ mergePass H runs, Arranged c run := by
  induction runs using mergePass.induct with
  | case1 => simp [mergePass]
  | case2 run => simpa [mergePass] using h
  | case3 run run' runs ih =>
    obtain ⟨hperm, hall⟩ := ih fun r hr => h r (mem_of_mem_drop hr)
    obtain ⟨hchunk, hsorted⟩ := drainAll_prime (length_take_le maxFanin _) fun r hr =>
      h r (mem_of_mem_take hr)
    rw [mergePass]
    refine ⟨(hchunk.append hperm).trans ?_, forall_mem_cons.2 ⟨hsorted, hall⟩⟩
    rw [← flatten_append, take_append_drop]

theorem drainAll_new (H : Heap (heapOrder c)) (h : ∀ run ∈ runs, Arranged c run) :
    (new H runs).drainAll.Perm runs.flatten ∧ Arranged c (new H runs).drainAll := by
  induction runs using new.induct H with
  | case1 runs hle =>
    rw [new, dif_pos hle]
    exact drainAll_prime hle h
  | case2 runs hle ih =>
    obtain ⟨hperm, hall⟩ := mergePass_spec H h
    rw [new, dif_neg hle]
    exact ⟨(ih hall).1.trans hperm, (ih hall).2⟩

end KWayMerge

/-! ## A sort within a budget -/

/-- The buffer of `PhysicalSort`, its size, and the runs written so far. -/
structure SortBuffer (A : Type) where
  buffer : List A
  bytes : Nat
  runs : List (List A)

variable (c) in
def SortBuffer.add (budget : Nat) (size : A → Nat) (s : SortBuffer A) (a : A) : SortBuffer A :=
  if budget ≤ s.bytes + size a then ⟨[], 0, s.runs ++ [arrange c (s.buffer ++ [a])]⟩
  else ⟨s.buffer ++ [a], s.bytes + size a, s.runs⟩

/-- The entries in order: in memory, or merged from the runs. -/
def sortWithin (H : Heap (heapOrder c)) (budget : Nat) (size : A → Nat) (l : List A) : List A :=
  let s := l.foldl (SortBuffer.add c budget size) ⟨[], 0, []⟩
  if s.runs = [] then arrange c s.buffer
  else (KWayMerge.new H
    (s.runs ++ if s.buffer.isEmpty then [] else [arrange c s.buffer])).drainAll

variable [Std.TransCmp c]

theorem SortBuffer.foldl_add (budget : Nat) (size : A → Nat) (l : List A) {s : SortBuffer A}
    (h : ∀ run ∈ s.runs, Arranged c run) :
    let s' := l.foldl (SortBuffer.add c budget size) s
    (s'.runs.flatten ++ s'.buffer).Perm (s.runs.flatten ++ s.buffer ++ l) ∧
      ∀ run ∈ s'.runs, Arranged c run := by
  induction l generalizing s with
  | nil => simpa using h
  | cons a l ih =>
    rw [foldl_cons, append_cons, append_assoc _ _ [a], SortBuffer.add]
    split
    · obtain ⟨hperm, hall⟩ := ih (s := ⟨[], 0, s.runs ++ [arrange c (s.buffer ++ [a])]⟩) (by
        simpa [or_imp, forall_and] using ⟨h, arranged_arrange _⟩)
      refine ⟨hperm.trans (.append_right l ?_), hall⟩
      simpa using (perm_arrange (s.buffer ++ [a])).append_left s.runs.flatten
    · exact ih h

theorem sortWithin_spec (H : Heap (heapOrder c)) (budget : Nat) (size : A → Nat) (l : List A) :
    (sortWithin H budget size l).Perm l ∧ Arranged c (sortWithin H budget size l) := by
  obtain ⟨hperm, hall⟩ := SortBuffer.foldl_add (c := c) budget size l (s := ⟨[], 0, []⟩) nofun
  unfold sortWithin
  set s := l.foldl (SortBuffer.add c budget size) ⟨[], 0, []⟩
  replace hperm : (s.runs.flatten ++ s.buffer).Perm l := hperm
  dsimp only
  split
  · next hnil =>
    rw [hnil] at hperm
    exact ⟨(perm_arrange _).trans hperm, arranged_arrange _⟩
  · obtain ⟨hdrain, hsorted⟩ := @KWayMerge.drainAll_new _ _
      (s.runs ++ if s.buffer.isEmpty then [] else [arrange c s.buffer]) _ H (by
        simpa [or_imp, forall_and] using ⟨hall, fun _ => arranged_arrange _⟩)
    refine ⟨hdrain.trans (.trans ?_ hperm), hsorted⟩
    rw [flatten_append]
    refine .append_left _ ?_
    split
    · next hnil => rw [isEmpty_iff.1 hnil]; rfl
    · simpa using perm_arrange s.buffer

abbrev MergeHeaps := {P : Type} → (directions : List Bool) →
  Heap (heapOrder (compareEntries (P := P) directions))

/-- Sorts that spill whenever their buffer reaches `budget`. -/
def Runtime.within (rt : Runtime) (heap : MergeHeaps) (size : {P : Type} → List DbValue × P → Nat)
    (budget : Nat) : Runtime :=
  { rt with
    sortEntries := fun directions => sortWithin (heap directions) budget size
    memoryBudget := budget
    perm_sortEntries := fun directions l => (sortWithin_spec (heap directions) budget size l).1
    arranged_sortEntries := fun directions l => (sortWithin_spec (heap directions) budget size l).2 }

/-- **Merging and sorting do not depend on the memory.** A merge hands out all entries of sorted runs
in order, whatever their number, with few runs open; a sort gives the same rows and sequence of keys
within any two budgets. -/
theorem sort_within_any_budget (heap : MergeHeaps) :
    (∀ {P : Type} directions (runs : List (List (List DbValue × P))),
      (∀ run ∈ runs, Arranged (compareEntries directions) run) →
      let merger := KWayMerge.new (heap directions) runs
      merger.drainAll.Perm runs.flatten ∧ Arranged (compareEntries directions) merger.drainAll ∧
        merger.runs.length ≤ maxFanin) ∧
    ∀ (lib : Library) (rt : Runtime) (size : {P : Type} → List DbValue × P → Nat) s keys rows b₁ b₂,
      let sorted := fun budget => sortRows lib (rt.within heap size budget) s keys rows
      (∃ e, sorted b₁ = .failed e ∧ sorted b₂ = .failed e) ∨
      ∃ l₁ l₂ codes, sorted b₁ = .ofList l₁ ∧ sorted b₂ = .ofList l₂ ∧ l₁.Perm rows.items ∧
        l₂.Perm rows.items ∧ sortKeys lib s keys l₁ = .ok codes ∧ sortKeys lib s keys l₂ = .ok codes := by
  refine ⟨fun directions runs h => ?_, fun lib rt size s keys rows b₁ b₂ => ?_⟩
  · obtain ⟨hperm, hsorted⟩ := KWayMerge.drainAll_new (heap directions) h
    exact ⟨hperm, hsorted, KWayMerge.fanin _⟩
  · intro sorted
    have hsorted : ∀ b, sorted b = _ := fun b => sortRows.eq_def ..
    cases hentries : keyedRows lib s (keys.map Prod.fst) rows with
    | error e =>
      simp only [hentries] at hsorted
      exact .inl ⟨e, hsorted b₁, hsorted b₂⟩
    | ok entries =>
      simp only [hentries] at hsorted
      obtain ⟨hitems, hkeys⟩ := keyedRows_spec hentries
      have hspec := fun b => sortWithin_spec (heap (keys.map Prod.snd)) b size entries
      have hperm : ∀ b, ((sortWithin _ b size entries).map Prod.snd).Perm rows.items := fun b =>
        hitems ▸ (hspec b).1.map _
      have hcodes := fun b => sortKeys_arranged hkeys (hspec b).1 (hspec b).2
      exact .inr ⟨_, _, _, hsorted b₁, hsorted b₂, hperm b₁, hperm b₂, hcodes b₁, hcodes b₂⟩

/-- One run more than may be open, each of one entry. -/
theorem sort_within_any_budget_manyRuns :
    let runs := replicate 65 [([DbValue.null], ())]
    ∃ H, (KWayMerge.new (c := compareEntries [true]) H runs).drainAll.Perm runs.flatten :=
  ⟨_, ((sort_within_any_budget fun _ => @Heap.ofList _ _ inferInstance (Classical.decEq _)).1 [true]
    (replicate 65 [([.null], ())]) (by simp [Arranged])).1⟩

end Dtdb.Sql

import Dtdb.Storage.SstableFile

/-! # Point reads, one key and many

`get` stops at the first probe that answers.  `multi_get` sweeps the same probes over all keys still
unanswered, striking the answered ones off an index list by swap-removal. -/

namespace Dtdb.Storage

open Dtdb.Lib List Option Function

/-! ## Swap-removal -/

section

variable {α : Type}

/-- `Vec::swap_remove`: the last element takes the place of the removed one. -/
def swapRemove (l : List α) (i : Nat) : List α :=
  match l.getLast? with
  | none => []
  | some x => (l.set i x).dropLast

theorem swapRemove_concat {l : List α} {x : α} {i : Nat} (hi : i ≤ l.length) :
    swapRemove (l ++ [x]) i = if i = l.length then l else l.set i x := by
  unfold swapRemove
  rw [getLast?_concat]
  dsimp only
  split
  · next h => rw [h]; simp
  · next h => rw [set_append_left _ _ (by omega), dropLast_concat]

theorem take_swapRemove {l : List α} {i : Nat} (hi : i < l.length) :
    (swapRemove l i).take i = l.take i := by
  rcases eq_nil_or_concat l with rfl | ⟨m, x, rfl⟩
  · cases hi
  rw [concat_eq_append] at hi ⊢
  have hle : i ≤ m.length := by simpa [Nat.lt_succ_iff] using hi
  rw [swapRemove_concat hle, take_append_of_le_length hle]
  split
  · rfl
  · rw [take_set, set_eq_of_length_le (by simp)]

theorem swapRemove_perm {l : List α} {i : Nat} (hi : i < l.length) :
    (l[i] :: swapRemove l i).Perm l := by
  rcases eq_nil_or_concat l with rfl | ⟨m, x, rfl⟩
  · cases hi
  simp only [concat_eq_append] at hi ⊢
  have hle : i ≤ m.length := by simpa [Nat.lt_succ_iff] using hi
  rw [swapRemove_concat hle]
  split
  · next h =>
    subst h
    simpa using (perm_append_singleton x m).symm
  · next h =>
    have hlt : i < m.length := by omega
    rw [getElem_append_left hlt]
    calc m[i] :: m.set i x
      _ |>.Perm (m[i] :: x :: m.eraseIdx i) := .cons _ (set_perm_cons_eraseIdx hlt x)
      _ |>.Perm (x :: m[i] :: m.eraseIdx i) := .swap ..
      _ |>.Perm (x :: m) := .cons _ (getElem_cons_eraseIdx_perm hlt)
      _ |>.Perm (m ++ [x]) := (perm_append_singleton x m).symm

end

/-! ## Sweeps -/

section

variable {K V : Type}

/-- What one memtable, file or level says about a key: nothing, or the slot it holds. -/
abbrev Probe (K V : Type) := K → Except StorageError (Option (Option V))

/-- `remaining_indices` and `results`. -/
structure Pending (V : Type) where
  remaining : List Nat
  results : List (Option V)

/-- The `while` loop that asks one probe about every open key from place `i` on. -/
def sweep (keys : List K) (p : Probe K V) : Nat → Nat → Pending V → Except StorageError (Pending V)
  | 0, _, s => .ok s
  | n + 1, i, s =>
    match s.remaining[i]? with
    | none => .ok s
    | some idx =>
      match keys[idx]? with
      | none => .ok s
      | some k =>
        match p k with
        | .error err => .error err
        | .ok none => sweep keys p n (i + 1) s
        | .ok (some res) => sweep keys p n i
          { remaining := swapRemove s.remaining i, results := s.results.set idx res }

/-- Ask the probes in turn until no key is open. -/
def sweepAll (keys : List K) : List (Probe K V) → Pending V → Except StorageError (Pending V)
  | [], s => .ok s
  | p :: ps, s =>
    if s.remaining.isEmpty then .ok s
    else match sweep keys p s.remaining.length 0 s with
      | .error err => .error err
      | .ok s' => sweepAll keys ps s'

/-- The open indices are distinct and point at keys with a result cell. -/
structure Pending.Ok (n : Nat) (s : Pending V) : Prop where
  nodup : s.remaining.Nodup
  bound : ∀ j ∈ s.remaining, j < n
  length : s.results.length = n

/-- `s'` is `s` with every open index that `ans` knows answered. -/
structure Swept (ans : Nat → Option (Option V)) (s s' : Pending V) : Prop where
  remaining : ∀ j, j ∈ s'.remaining ↔ j ∈ s.remaining ∧ ans j = none
  answered : ∀ j ∈ s.remaining, ∀ r, ans j = some r → s'.results[j]? = some r
  kept : ∀ j, (j ∈ s.remaining → ans j = none) → s'.results[j]? = s.results[j]?

theorem Swept.refl {ans : Nat → Option (Option V)} {s : Pending V}
    (h : ∀ j ∈ s.remaining, ans j = none) : Swept ans s s where
  remaining j := ⟨fun hj => ⟨hj, h j hj⟩, And.left⟩
  answered j hj r hr := by
    rw [h j hj] at hr
    cases hr
  kept _ _ := rfl

theorem Swept.trans {a b : Nat → Option (Option V)} {s s₁ s₂ : Pending V} (h₁ : Swept a s s₁)
    (h₂ : Swept b s₁ s₂) : Swept (fun j => (a j).or (b j)) s s₂ := by
  refine ⟨fun j => ?_, fun j hj r hr => ?_, fun j hj => ?_⟩
  · rw [h₂.remaining, h₁.remaining, or_eq_none_iff, and_assoc]
  · cases ha : a j with
    | none =>
      rw [ha] at hr
      exact h₂.answered j ((h₁.remaining j).2 ⟨hj, ha⟩) r hr
    | some r' =>
      rw [ha] at hr
      cases hr
      rw [h₂.kept j fun hj' => absurd ((h₁.remaining j).1 hj').2 (by rw [ha]; nofun)]
      exact h₁.answered j hj r ha
  · rw [h₂.kept j fun hj' => ?_, h₁.kept j fun hj' => (or_eq_none_iff.1 (hj hj')).1]
    exact (or_eq_none_iff.1 (hj ((h₁.remaining j).1 hj').1)).2

theorem Swept.strike {ans : Nat → Option (Option V)} {n : Nat} {s s' : Pending V} (hs : s.Ok n)
    {i idx : Nat} {res : Option V} (hi : s.remaining[i]? = some idx) (hres : ans idx = some res)
    (h : Swept ans ⟨swapRemove s.remaining i, s.results.set idx res⟩ s') : Swept ans s s' := by
  obtain ⟨hlt, rfl⟩ := List.getElem?_eq_some_iff.mp hi
  have hperm := swapRemove_perm hlt
  have hnd := (hperm.nodup_iff.2 hs.nodup)
  have hmem : ∀ j, j ∈ swapRemove s.remaining i ↔ j ∈ s.remaining ∧ j ≠ s.remaining[i] := by
    intro j
    rw [← hperm.mem_iff, mem_cons]
    have hnot := (nodup_cons.1 hnd).1
    constructor
    · exact fun hj => ⟨.inr hj, fun heq => hnot (heq ▸ hj)⟩
    · exact fun ⟨hj, hne⟩ => hj.resolve_left hne
  refine ⟨fun j => ?_, fun j hj r hr => ?_, fun j hj => ?_⟩
  · rw [h.remaining, hmem]
    refine ⟨fun ⟨⟨hj, _⟩, hn⟩ => ⟨hj, hn⟩, fun ⟨hj, hn⟩ => ⟨⟨hj, ?_⟩, hn⟩⟩
    rintro rfl
    rw [hres] at hn
    cases hn
  · by_cases hji : j = s.remaining[i]
    · subst hji
      rw [hres] at hr
      cases hr
      rw [h.kept _ fun hj' => absurd rfl ((hmem _).1 hj').2]
      refine getElem?_set_self ?_
      rw [hs.length]
      exact hs.bound _ hj
    · exact h.answered j ((hmem j).2 ⟨hj, hji⟩) r hr
  · have hji : j ≠ s.remaining[i] := by
      rintro rfl
      rw [hj (getElem_mem hlt)] at hres
      cases hres
    rw [h.kept j fun hj' => hj ((hmem j).1 hj').1, getElem?_set_ne (Ne.symm hji)]

/-- What a probe that never fails says about the key at an index. -/
def answerAt (keys : List K) (g : K → Option (Option V)) (j : Nat) : Option (Option V) :=
  keys[j]?.bind g

theorem sweep_spec {keys : List K} {p : Probe K V} {g : K → Option (Option V)}
    (hp : ∀ k, p k = .ok (g k)) {n i : Nat} {s : Pending V} (hs : s.Ok keys.length)
    (hn : s.remaining.length ≤ i + n) (hdone : ∀ j ∈ s.remaining.take i, answerAt keys g j = none) :
    ∃ s', sweep keys p n i s = .ok s' ∧ s'.Ok keys.length ∧ Swept (answerAt keys g) s s' := by
  induction n generalizing i s with
  | zero =>
    refine ⟨s, rfl, hs, .refl fun j hj => hdone j ?_⟩
    rwa [take_of_length_le (by omega)]
  | succ n ih =>
    simp only [sweep]
    cases hi : s.remaining[i]? with
    | none =>
      refine ⟨s, rfl, hs, .refl fun j hj => hdone j ?_⟩
      rwa [take_of_length_le (getElem?_eq_none_iff.1 hi)]
    | some idx =>
      obtain ⟨hlt, hidx⟩ := List.getElem?_eq_some_iff.mp hi
      have hkey : idx < keys.length := hs.bound idx (hidx ▸ getElem_mem hlt)
      have hans : answerAt keys g idx = g keys[idx] := by
        rw [answerAt, getElem?_eq_getElem hkey, bind_some]
      simp only [getElem?_eq_getElem hkey, hp]
      cases hg : g keys[idx] with
      | none =>
        refine ih hs (by omega) fun j hj => ?_
        rw [take_succ_eq_append_getElem hlt, mem_append, mem_singleton] at hj
        rcases hj with hj | rfl
        · exact hdone j hj
        · rw [hidx, hans, hg]
      | some res =>
        have hperm := swapRemove_perm hlt
        have hlen := hperm.length_eq
        rw [length_cons] at hlen
        have hok : Pending.Ok keys.length ⟨swapRemove s.remaining i, s.results.set idx res⟩ := by
          refine ⟨(nodup_cons.1 (hperm.nodup_iff.2 hs.nodup)).2, fun j hj => ?_, ?_⟩
          · exact hs.bound j (hperm.mem_iff.1 (mem_cons_of_mem _ hj))
          · rw [length_set]
            exact hs.length
        obtain ⟨s', hsw, hok', hswept⟩ := ih (i := i) hok (by dsimp only; omega) (by
          rw [take_swapRemove hlt]
          exact hdone)
        exact ⟨s', hsw, hok', .strike hs hi (hans.trans hg) hswept⟩

theorem sweepAll_spec {keys : List K} {ps : List (Probe K V)} {gs : List (K → Option (Option V))}
    (hp : List.Forall₂ (fun p g => ∀ k, p k = .ok (g k)) ps gs) {s : Pending V}
    (hs : s.Ok keys.length) : ∃ s', sweepAll keys ps s = .ok s' ∧
      Swept (answerAt keys fun k => gs.findSome? fun g => g k) s s' := by
  induction hp generalizing s with
  | nil =>
    refine ⟨s, rfl, .refl fun j _ => ?_⟩
    unfold answerAt
    cases keys[j]? <;> rfl
  | @cons p g ps gs hpg _ ih =>
    simp only [sweepAll]
    split
    · next hnil =>
      refine ⟨s, rfl, .refl fun j hj => ?_⟩
      rw [isEmpty_iff.1 hnil] at hj
      cases hj
    · obtain ⟨s₁, hsw, hok, h₁⟩ := sweep_spec hpg hs (i := 0) (n := s.remaining.length)
        (by omega) (by simp)
      obtain ⟨s₂, hall, h₂⟩ := ih hok
      refine ⟨s₂, by rw [hsw]; exact hall, ?_⟩
      have heq : (answerAt keys fun k => (g :: gs).findSome? fun g => g k)
          = fun j => (answerAt keys g j).or (answerAt keys (fun k => gs.findSome? fun g => g k) j) := by
        funext j
        unfold answerAt
        cases keys[j]? with
        | none => rfl
        | some k =>
          simp only [bind_some, findSome?_cons]
          cases g k <;> rfl
      rw [heq]
      exact h₁.trans h₂

/-- `multi_get` over its probes. -/
def askAll (ps : List (Probe K V)) (keys : List K) : Except StorageError (List (Option V)) :=
  (sweepAll keys ps ⟨range keys.length, replicate keys.length none⟩).map Pending.results

/-- `get` over its probes. -/
def askFirst : List (Probe K V) → K → Except StorageError (Option V)
  | [], _ => .ok none
  | p :: ps, k =>
    match p k with
    | .error err => .error err
    | .ok (some s) => .ok s
    | .ok none => askFirst ps k

theorem askFirst_eq {ps : List (Probe K V)} {gs : List (K → Option (Option V))}
    (hp : List.Forall₂ (fun p g => ∀ k, p k = .ok (g k)) ps gs) (k : K) :
    askFirst ps k = .ok (gs.findSome? fun g => g k).join := by
  induction hp with
  | nil => rfl
  | @cons p g ps gs hpg _ ih =>
    simp only [askFirst, hpg, findSome?_cons]
    cases g k with
    | none => exact ih
    | some s => rfl

/-- **Batched reads.** Where no probe fails, sweeping answers as asking for each key alone. -/
theorem askAll_eq {ps : List (Probe K V)} {gs : List (K → Option (Option V))}
    (hp : List.Forall₂ (fun p g => ∀ k, p k = .ok (g k)) ps gs) (keys : List K) :
    askAll ps keys = keys.mapM (askFirst ps) := by
  have hok : Pending.Ok (V := V) keys.length
      ⟨range keys.length, replicate keys.length none⟩ :=
    ⟨nodup_range, fun j hj => mem_range.1 hj, length_replicate⟩
  obtain ⟨s, hs, hswept⟩ := sweepAll_spec hp hok
  have hone : keys.mapM (askFirst ps) = .ok (keys.map fun k => (gs.findSome? fun g => g k).join) := by
    rw [show askFirst ps = fun k => .ok (gs.findSome? fun g => g k).join from
      funext (askFirst_eq hp)]
    exact mapM_pure
  rw [hone, askAll, hs]
  refine congrArg Except.ok (ext_getElem? fun j => ?_)
  rw [getElem?_map]
  by_cases hj : j < keys.length
  · rw [getElem?_eq_getElem hj, map_some]
    have hans : answerAt keys (fun k => gs.findSome? fun g => g k) j
        = gs.findSome? fun g => g keys[j] := by
      rw [answerAt, getElem?_eq_getElem hj, bind_some]
    cases hg : gs.findSome? fun g => g keys[j] with
    | none =>
      rw [hswept.kept j fun _ => hans.trans hg]
      simp [hj]
    | some r => exact hswept.answered j (mem_range.2 hj) r (hans.trans hg)
  · have hnone : keys[j]? = none := getElem?_eq_none (by omega)
    rw [hswept.kept j fun hm => absurd (mem_range.1 hm) hj, hnone]
    simpa using hj

end

/-! ## The engine's probes -/

variable {K V Λ : Type} [LinearOrder K]

/-- The probe that resolves what a search of the files finds. -/
def Probe.ofHit (resolve : Hit V Λ → Except StorageError (Option V))
    (f : K → Option (Hit V Λ)) : Probe K V := fun k =>
  match f k with
  | none => .ok none
  | some h => (resolve h).map some

omit [LinearOrder K] in
theorem askFirst_map_ofHit (resolve : Hit V Λ → Except StorageError (Option V))
    (fs : List (K → Option (Hit V Λ))) (k : K) :
    askFirst (fs.map (Probe.ofHit resolve)) k = match fs.findSome? fun f => f k with
      | some h => resolve h
      | none => .ok none := by
  induction fs with
  | nil => rfl
  | cons f fs ih =>
    simp only [map_cons, askFirst, Probe.ofHit, findSome?_cons]
    cases f k with
    | none => exact ih
    | some h =>
      dsimp only
      cases resolve h <;> rfl

namespace Engine

variable [ByteSize K] [ByteSize V]

def memtables (e : Engine K V Λ) : List (MemTable K V) :=
  e.active :: e.immutable.map fun imm => imm.table

theorem memHit_eq_findSome? (e : Engine K V Λ) (k : K) :
    e.memHit k = e.memtables.findSome? fun m => m.get k := by
  simp only [memHit, memtables, findSome?_cons, findSome?_map]
  cases e.active.get k <;> rfl

def memProbes (e : Engine K V Λ) : List (Probe K V) := e.memtables.map fun m k => .ok (m.get k)

variable [DecidableEq Λ]

/-- One file: its filter and blocks, then the rewriter. -/
def fileProbe (fmt : FileFormat K V Λ) (cfg : Config K V Λ) (e : Engine K V Λ)
    (r : Reader K V Λ) : Probe K V := fun k =>
  match (r.file fmt).get fmt.hash k with
  | none => .ok none
  | some slot => (e.resolve cfg (r.layout, slot)).map some

/-- One level below 0: bisect to the file whose range holds the key. -/
def levelProbe (fmt : FileFormat K V Λ) (cfg : Config K V Λ) (e : Engine K V Λ)
    (list : List (Reader K V Λ)) : Probe K V := fun k =>
  match binarySearchBy (rangeCmp k) list with
  | .ok i =>
    match list[i]? with
    | some r => e.fileProbe fmt cfg r k
    | none => .ok none
  | .error _ => .ok none

def deeperLevels (e : Engine K V Λ) : List (List (Reader K V Λ)) :=
  (e.sstables.entries.filter fun x => !(decide (x.1 = 0) || x.2.isEmpty)).map Prod.snd

def fileProbes (fmt : FileFormat K V Λ) (cfg : Config K V Λ) (e : Engine K V Λ) :
    List (Probe K V) :=
  (e.level 0).map (e.fileProbe fmt cfg) ++ e.deeperLevels.map (e.levelProbe fmt cfg)

def multiGet (fmt : FileFormat K V Λ) (cfg : Config K V Λ) (e : Engine K V Λ) (keys : List K) :
    Except StorageError (List (Option V)) :=
  askAll (e.memProbes ++ e.fileProbes fmt cfg) keys

/-! ## One key -/

variable {fmt : FileFormat K V Λ} {cfg : Config K V Λ}

def searches (e : Engine K V Λ) : List (K → Option (Hit V Λ)) :=
  (e.level 0).map Reader.hit ++ e.deeperLevels.map probeLevel

theorem fileProbes_eq (e : Engine K V Λ) :
    e.fileProbes fmt cfg = e.searches.map (Probe.ofHit (e.resolve cfg)) := by
  have hfile : e.fileProbe fmt cfg = fun r => Probe.ofHit (e.resolve cfg) r.hit := by
    funext r k
    simp only [fileProbe, Reader.file_get, Probe.ofHit, Reader.hit]
    cases r.get k <;> rfl
  have hlevel : e.levelProbe fmt cfg = fun l => Probe.ofHit (e.resolve cfg) (probeLevel l) := by
    funext l k
    simp only [levelProbe, Probe.ofHit, probeLevel, hfile]
    cases binarySearchBy (rangeCmp k) l with
    | error i => rfl
    | ok i =>
      dsimp only
      cases l[i]? <;> rfl
  simp [fileProbes, searches, hfile, hlevel, List.map_append, List.map_map, comp_def]

omit [DecidableEq Λ] in
theorem probe_eq_searches (e : Engine K V Λ) (k : K) :
    e.probe k = e.searches.findSome? fun f => f k := by
  have hdeep : (e.sstables.entries.findSome? fun x =>
      if x.1 = 0 then none else if x.2.isEmpty then none else probeLevel x.2 k)
      = e.deeperLevels.findSome? fun l => probeLevel l k := by
    unfold deeperLevels
    induction e.sstables.entries with
    | nil => rfl
    | cons x l ih =>
      rw [findSome?_cons, filter_cons, ih]
      by_cases h0 : x.1 = 0
      · simp [h0]
      · by_cases hnil : x.2.isEmpty
        · simp [hnil]
        · rw [if_neg h0, if_neg hnil, if_pos (by simp [h0, hnil]), map_cons,
            findSome?_cons]
  simp only [probe, searches, hdeep, findSome?_append, findSome?_map, comp_def]
  cases (e.level 0).findSome? fun r => r.hit k <;> rfl

theorem get_eq_askFirst (e : Engine K V Λ) (k : K) :
    e.get cfg k = askFirst (e.memProbes ++ e.fileProbes fmt cfg) k := by
  have hmem : ∀ ms : List (MemTable K V),
      askFirst (ms.map (fun m k => .ok (m.get k)) ++ e.fileProbes fmt cfg) k
        = (ms.findSome? fun m => m.get k).elim (askFirst (e.fileProbes fmt cfg) k) .ok := by
    intro ms
    induction ms with
    | nil => rfl
    | cons m ms ih =>
      simp only [map_cons, cons_append, askFirst, findSome?_cons]
      cases m.get k with
      | none => exact ih
      | some slot => rfl
  rw [memProbes, hmem, fileProbes_eq, askFirst_map_ofHit, ← probe_eq_searches,
    ← memHit_eq_findSome?]
  unfold get
  cases e.memHit k <;> rfl

/-! ## Where no value fails to be rewritten -/

/-- `val` is what the rewriter makes of every slot. -/
def Resolves (cfg : Config K V Λ) (e : Engine K V Λ) (val : Hit V Λ → Option V) : Prop :=
  ∀ h, e.resolve cfg h = .ok (val h)

theorem Resolves.passthrough {e : Engine K V Λ}
    (h : cfg.rewriter = Storage.passthrough) : e.Resolves cfg Prod.snd := by
  rintro ⟨layout, slot⟩
  cases slot with
  | none => rfl
  | some v =>
    simp only [resolve, h]
    split <;> rfl

def answer (e : Engine K V Λ) (val : Hit V Λ → Option V) (k : K) : Option V :=
  match e.memHit k with
  | some slot => slot
  | none => (e.probe k).bind val

theorem Resolves.get_eq {e : Engine K V Λ} {val : Hit V Λ → Option V} (h : e.Resolves cfg val)
    (k : K) : e.get cfg k = .ok (e.answer val k) := by
  unfold get answer
  cases e.memHit k with
  | some slot => rfl
  | none =>
    cases e.probe k with
    | none => rfl
    | some x => exact h x

/-- **`multi_get` is `get`, key by key.** -/
theorem Resolves.multiGet_eq {e : Engine K V Λ} {val : Hit V Λ → Option V}
    (h : e.Resolves cfg val) (keys : List K) :
    e.multiGet fmt cfg keys = keys.mapM (e.get cfg) := by
  have hp : List.Forall₂ (fun (p : Probe K V) g => ∀ k, p k = .ok (g k))
      (e.memProbes ++ e.fileProbes fmt cfg)
      (e.memtables.map (fun m k => m.get k) ++ e.searches.map fun f k => (f k).map val) := by
    refine rel_append ?_ ?_
    · rw [memProbes, forall₂_map_left_iff, forall₂_map_right_iff]
      exact forall₂_same.2 fun m _ k => rfl
    · rw [fileProbes_eq, forall₂_map_left_iff, forall₂_map_right_iff]
      refine forall₂_same.2 fun f _ k => ?_
      dsimp only [Probe.ofHit]
      cases f k with
      | none => rfl
      | some x => exact congrArg (Except.map some) (h x)
  rw [multiGet, askAll_eq hp]
  congr 1
  funext k
  exact (e.get_eq_askFirst k).symm

end Engine

end Dtdb.Storage

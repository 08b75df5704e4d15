/-!
# Values filed under numbers

A finite map from natural numbers, kept in increasing order of the keys. Looking up after filing gives
the filed value under its key and leaves all other keys as they were.
-/

namespace LatticeGates

/-- A list of entries in which every key is below those after it. -/
structure Registry (α : Type) where
  entries : List (Nat × α) := []
  increasing : entries.Pairwise (fun x y => x.1 < y.1) := by exact List.Pairwise.nil

namespace Registry

variable {α : Type}

def empty : Registry α := {}

def get? (r : Registry α) (k : Nat) : Option α := r.entries.lookup k

def contains (r : Registry α) (k : Nat) : Bool := (r.get? k).isSome

def keys (r : Registry α) : List Nat := r.entries.map (·.1)

def size (r : Registry α) : Nat := r.entries.length

def isEmpty (r : Registry α) : Bool := r.entries.isEmpty

def place (k : Nat) (v : α) : List (Nat × α) → List (Nat × α)
  | [] => [(k, v)]
  | x :: rest =>
    if k < x.1 then (k, v) :: x :: rest
    else if k = x.1 then (k, v) :: rest
    else x :: place k v rest

private theorem key_of_mem_place (k : Nat) (v : α) (xs : List (Nat × α)) (y : Nat × α)
    (hy : y ∈ place k v xs) : y.1 = k ∨ y ∈ xs := by
  induction xs with
  | nil => simp_all [place]
  | cons x rest ih =>
    rw [place] at hy
    split at hy
    · rcases List.mem_cons.1 hy with rfl | hy
      · exact Or.inl rfl
      · exact Or.inr hy
    · split at hy
      · rcases List.mem_cons.1 hy with rfl | hy
        · exact Or.inl rfl
        · exact Or.inr (List.mem_cons_of_mem _ hy)
      · rcases List.mem_cons.1 hy with rfl | hy
        · exact Or.inr List.mem_cons_self
        · exact (ih hy).imp_right (List.mem_cons_of_mem _)

private theorem place_increasing (k : Nat) (v : α) (xs : List (Nat × α))
    (h : xs.Pairwise fun x y => x.1 < y.1) :
    (place k v xs).Pairwise fun x y => x.1 < y.1 := by
  induction xs with
  | nil => simp [place]
  | cons x rest ih =>
    obtain ⟨hx, hrest⟩ := List.pairwise_cons.1 h
    rw [place]
    split
    · rename_i hk
      refine List.pairwise_cons.2 ⟨fun y hy => ?_, h⟩
      rcases List.mem_cons.1 hy with rfl | hy
      · exact hk
      · exact Nat.lt_trans hk (hx y hy)
    · split
      · rename_i hk
        exact List.pairwise_cons.2 ⟨fun y hy => hk ▸ hx y hy, hrest⟩
      · refine List.pairwise_cons.2 ⟨fun y hy => ?_, ih hrest⟩
        rcases key_of_mem_place k v rest y hy with rfl | hy
        · omega
        · exact hx y hy

private theorem lookup_entry (x : Nat × α) (xs : List (Nat × α)) (i : Nat) :
    (x :: xs).lookup i = if i = x.1 then some x.2 else xs.lookup i := by
  rw [List.lookup_cons]
  by_cases hi : i = x.1
  · simp [hi]
  · simp [hi, beq_false_of_ne hi]

private theorem lookup_place (k : Nat) (v : α) (xs : List (Nat × α)) (i : Nat) :
    (place k v xs).lookup i = if i = k then some v else xs.lookup i := by
  induction xs with
  | nil => rw [place, lookup_entry]
  | cons x rest ih =>
    rw [place]
    split
    · rw [lookup_entry]
    · split
      · rename_i hk
        rw [lookup_entry, lookup_entry]
        split
        · rfl
        · rw [if_neg (by omega)]
      · rename_i hk
        rw [lookup_entry, lookup_entry, ih]
        by_cases hi : i = k
        · rw [if_neg (by omega), if_pos hi, if_pos hi]
        · rw [if_neg hi, if_neg hi]

def insert (r : Registry α) (k : Nat) (v : α) : Registry α :=
  ⟨place k v r.entries, place_increasing k v r.entries r.increasing⟩

def insertIfAbsent (r : Registry α) (k : Nat) (v : α) : Registry α :=
  if r.contains k then r else r.insert k v

@[simp] theorem get?_empty (k : Nat) : (empty : Registry α).get? k = none := rfl

theorem get?_insert (r : Registry α) (k : Nat) (v : α) (i : Nat) :
    (r.insert k v).get? i = if i = k then some v else r.get? i :=
  lookup_place k v r.entries i

theorem get?_insertIfAbsent (r : Registry α) (k : Nat) (v : α) (i : Nat) :
    (r.insertIfAbsent k v).get? i = if i = k then some ((r.get? k).getD v) else r.get? i := by
  unfold insertIfAbsent contains
  cases h : r.get? k with
  | none => simp [get?_insert]
  | some w => by_cases hi : i = k <;> simp [hi, h]

theorem mem_keys (r : Registry α) (k : Nat) : k ∈ r.keys ↔ (r.get? k).isSome := by
  unfold keys get?
  induction r.entries with
  | nil => simp
  | cons x rest ih =>
    rw [lookup_entry, List.map_cons, List.mem_cons, ih]
    by_cases hk : k = x.1 <;> simp [hk]

theorem keys_increasing (r : Registry α) : r.keys.Pairwise (· < ·) :=
  List.pairwise_map.2 r.increasing

end Registry

end LatticeGates

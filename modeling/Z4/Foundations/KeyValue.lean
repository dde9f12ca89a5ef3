import Mathlib

/-!
# A byte-ordered key-value store

The store is an extensional tree map from byte strings, ordered by the lexicographic `compare`, so
two stores with the same lookups are equal and `toList` enumerates the entries in key order. Writes
are collected in a batch and committed at once: `commit` applies them in order, and
`getElem?_commit` reads off the result, the last write to a key deciding it.

## Scans

A range scan seeks to the first key at or after `start` and walks on while the keys keep the prefix
`p` and do not pass `stop`. Since the keys are sorted and those with a common prefix are contiguous,
walking until the first failure visits every entry that satisfies the tests:
`takeWhile_seekGE` turns the walk into a filter of the whole store.
-/

namespace KeyValue

variable {V : Type*}

/-- Keys and strings are byte strings. -/
abbrev Key := List UInt8

/-- A map from keys to values, ordered by key. -/
abbrev Store (V : Type*) := Std.ExtTreeMap Key V compare

/-! ## Batches -/

/-- One write of a batch. -/
inductive Write (V : Type*) where
  | set (key : Key) (value : V)
  | delete (key : Key)

/-- The key a write is about. -/
def Write.key : Write V → Key
  | .set k _ => k
  | .delete k => k

/-- What a lookup of its key returns right after the write. -/
def Write.result : Write V → Option V
  | .set _ v => some v
  | .delete _ => none

/-- Apply one write. -/
def apply (db : Store V) : Write V → Store V
  | .set k v => db.insert k v
  | .delete k => db.erase k

/-- Apply the writes of a batch, in order. -/
def commit (db : Store V) (batch : List (Write V)) : Store V := batch.foldl apply db

theorem getElem?_apply (db : Store V) (w : Write V) (k : Key) :
    (apply db w)[k]? = if w.key = k then w.result else db[k]? := by
  cases w with
  | set k' v =>
    rw [apply, Std.ExtTreeMap.getElem?_insert]
    by_cases hk : k' = k <;> simp [hk, Write.key, Write.result]
  | delete k' =>
    rw [apply, Std.ExtTreeMap.getElem?_erase]
    by_cases hk : k' = k <;> simp [hk, Write.key, Write.result]

theorem getElem?_insert (db : Store V) (k k' : Key) (v : V) :
    (db.insert k v)[k']? = if k = k' then some v else db[k']? :=
  getElem?_apply db (.set k v) k'

theorem getElem?_erase (db : Store V) (k k' : Key) :
    (db.erase k)[k']? = if k = k' then none else db[k']? :=
  getElem?_apply db (.delete k) k'

@[simp] theorem commit_nil (db : Store V) : commit db [] = db := rfl

theorem commit_append (db : Store V) (ws vs : List (Write V)) :
    commit db (ws ++ vs) = commit (commit db ws) vs := List.foldl_append

theorem commit_concat (db : Store V) (ws : List (Write V)) (w : Write V) :
    commit db (ws ++ [w]) = apply (commit db ws) w := by
  rw [commit_append]
  rfl

/-- **The last write to a key decides it.** -/
theorem getElem?_commit (db : Store V) (ws : List (Write V)) (k : Key) :
    (commit db ws)[k]? = ((ws.filter (·.key = k)).getLast?.map Write.result).getD db[k]? := by
  induction ws using List.reverseRecOn with
  | nil => rfl
  | append_singleton ws w ih =>
    rw [commit_concat, getElem?_apply, ih, List.filter_append]
    by_cases hk : w.key = k
    · simp [hk]
    · simp [hk]

theorem getElem?_commit_of_forall_ne {db : Store V} {ws : List (Write V)} {k : Key}
    (h : ∀ w ∈ ws, w.key ≠ k) : (commit db ws)[k]? = db[k]? := by
  have hnil : ws.filter (·.key = k) = [] := by simpa using h
  rw [getElem?_commit, hnil]
  rfl

theorem getElem?_commit_of_forall_eq {db : Store V} {ws : List (Write V)} {k : Key} {v : Option V}
    (hex : ∃ w ∈ ws, w.key = k) (h : ∀ w ∈ ws, w.key = k → w.result = v) :
    (commit db ws)[k]? = v := by
  have hne : ws.filter (·.key = k) ≠ [] := by simpa using hex
  have hmem := List.getLast_mem hne
  rw [List.mem_filter] at hmem
  rw [getElem?_commit, List.getLast?_eq_some_getLast hne, Option.map_some, Option.getD_some]
  exact h _ hmem.1 (by simpa using hmem.2)

/-! ## Range deletes -/

/-- Delete the keys from `lo` on, up to but without `hi`. -/
def deleteRange (lo hi : Key) (db : Store V) : Store V :=
  db.filter fun k _ ↦ !((compare lo k).isLE && (compare k hi).isLT)

theorem getElem?_deleteRange (lo hi : Key) (db : Store V) (k : Key) :
    (deleteRange lo hi db)[k]?
      = if (compare lo k).isLE && (compare k hi).isLT then none else db[k]? := by
  rw [deleteRange, Std.ExtTreeMap.getElem?_filter']
  split
  · rename_i h
    simp [h]
  · rename_i h
    cases db[k]? <;> simp [h]

/-! ## Prefixes and the order -/

/-- Keys with a common prefix are contiguous. -/
theorem prefix_of_between {p a b c : Key} (ha : p <+: a) (hc : p <+: c)
    (hab : (compare a b).isLE) (hbc : (compare b c).isLE) : p <+: b := by
  induction p generalizing a b c with
  | nil => exact List.nil_prefix
  | cons x p ih =>
    obtain ⟨a, rfl⟩ := ha
    obtain ⟨c, rfl⟩ := hc
    rw [List.cons_append] at hab hbc
    cases b with
    | nil => simp [List.compare_cons_nil] at hab
    | cons y b =>
      rw [List.compare_cons_cons] at hab hbc
      -- the leading bytes are squeezed between `x` and `x`
      have hxy : (compare x y).isLE := by
        cases h : compare x y <;> simp_all [Ordering.then]
      have hyx : (compare y x).isLE := by
        cases h : compare y x <;> simp_all [Ordering.then]
      obtain rfl : x = y :=
        Std.LawfulEqCmp.eq_of_compare (Std.OrientedCmp.isLE_antisymm hxy hyx)
      have hxx : compare x x = .eq := Std.ReflCmp.compare_self
      rw [hxx] at hab hbc
      rw [List.cons_prefix_cons]
      exact ⟨rfl, ih (List.prefix_append p a) (List.prefix_append p c) hab hbc⟩

/-! ## Scans -/

/-- The entries from the first key at or after `start` on. -/
def seekGE (db : Store V) (start : Key) : List (Key × V) :=
  db.toList.dropWhile fun e ↦ (compare e.1 start).isLT

/-- The tests a scan makes before it hands out an entry. -/
def within (p stop : Key) (e : Key × V) : Bool := p.isPrefixOf e.1 && (compare e.1 stop).isLE

private theorem dropWhile_eq_filter {α : Type*} {r : α → α → Prop} {q : α → Bool} {l : List α}
    (hl : l.Pairwise r) (hq : ∀ a b, r a b → q b → q a) :
    l.dropWhile q = l.filter fun a ↦ !q a := by
  induction l with
  | nil => rfl
  | cons a l ih =>
    rw [List.pairwise_cons] at hl
    by_cases ha : q a
    · rw [List.dropWhile_cons_of_pos ha, ih hl.2, List.filter_cons_of_neg (by simp [ha])]
    · -- past the first failure nothing satisfies `q` any more
      have hall : ∀ b ∈ l, ¬q b := fun b hb hqb ↦ ha (hq a b (hl.1 b hb) hqb)
      rw [List.dropWhile_cons_of_neg ha, List.filter_cons_of_pos (by simp [ha]),
        List.filter_eq_self.mpr fun b hb ↦ by simp [hall b hb]]

private theorem takeWhile_eq_filter {α : Type*} {r : α → α → Prop} {q : α → Bool} {l : List α}
    (hl : l.Pairwise r) (hq : ∀ a ∈ l, ∀ b ∈ l, r a b → q b → q a) :
    l.takeWhile q = l.filter q := by
  induction l with
  | nil => rfl
  | cons a l ih =>
    rw [List.pairwise_cons] at hl
    have hq' : ∀ b ∈ l, ∀ c ∈ l, r b c → q c → q b := fun b hb c hc ↦
      hq b (List.mem_cons_of_mem a hb) c (List.mem_cons_of_mem a hc)
    by_cases ha : q a
    · rw [List.takeWhile_cons_of_pos ha, List.filter_cons_of_pos ha, ih hl.2 hq']
    · have hall : ∀ b ∈ l, ¬q b := fun b hb hqb ↦
        ha (hq a List.mem_cons_self b (List.mem_cons_of_mem a hb) (hl.1 b hb) hqb)
      rw [List.takeWhile_cons_of_neg ha, List.filter_cons_of_neg ha,
        List.filter_eq_nil_iff.mpr hall]

theorem pairwise_toList (db : Store V) :
    db.toList.Pairwise fun a b ↦ compare a.1 b.1 = .lt := Std.ExtTreeMap.ordered_keys_toList

theorem seekGE_eq_filter (db : Store V) (start : Key) :
    seekGE db start = db.toList.filter fun e ↦ (compare start e.1).isLE := by
  rw [seekGE, dropWhile_eq_filter (pairwise_toList db)]
  · congr 1
    funext e
    have hswap : compare e.1 start = (compare start e.1).swap := Std.OrientedCmp.eq_swap
    rw [hswap]
    cases compare start e.1 <;> rfl
  · intro a b hab hb
    rw [Ordering.isLT_iff_eq_lt] at hb ⊢
    exact Std.TransCmp.lt_trans hab hb

/-- **A scan is a filter.** Walking on from `start` while the keys keep the prefix and do not pass
`stop` visits every entry in the range. -/
theorem takeWhile_seekGE (db : Store V) {p start stop : Key} (hp : p <+: start) :
    (seekGE db start).takeWhile (within p stop)
      = db.toList.filter fun e ↦ (compare start e.1).isLE && within p stop e := by
  rw [seekGE_eq_filter, takeWhile_eq_filter ((pairwise_toList db).filter _), List.filter_filter]
  · congr 1
    funext e
    exact Bool.and_comm _ _
  · intro a ha b _ hab hb
    rw [within, Bool.and_eq_true, List.isPrefixOf_iff_prefix] at hb ⊢
    have hle : (compare a.1 b.1).isLE := by rw [hab]; rfl
    have hsa : (compare start a.1).isLE := (List.mem_filter.mp ha).2
    exact ⟨prefix_of_between hp hb.1 hsa hle, Std.TransCmp.isLE_trans hle hb.2⟩

/-- Without an upper bound the walk ends with the prefix, and visits every key that has it. -/
theorem takeWhile_seekGE_isPrefixOf (db : Store V) (p : Key) :
    (seekGE db p).takeWhile (fun e ↦ p.isPrefixOf e.1)
      = db.toList.filter fun e ↦ p.isPrefixOf e.1 := by
  have hle : ∀ k : Key, p <+: k → (compare p k).isLE := by
    rintro _ ⟨x, rfl⟩
    induction p with
    | nil => cases x <;> rfl
    | cons b p ih =>
      have hb : compare b b = .eq := Std.ReflCmp.compare_self
      rw [List.cons_append, List.compare_cons_cons, hb]
      exact ih
  rw [seekGE_eq_filter, takeWhile_eq_filter ((pairwise_toList db).filter _), List.filter_filter]
  · refine List.filter_congr fun e _ ↦ ?_
    rw [Bool.and_eq_left_iff_imp, List.isPrefixOf_iff_prefix]
    exact hle e.1
  · intro a ha b _ hab hb
    rw [List.isPrefixOf_iff_prefix] at hb ⊢
    exact prefix_of_between (List.prefix_refl p) hb (List.mem_filter.mp ha).2 (by rw [hab]; rfl)

theorem mem_toList {db : Store V} {e : Key × V} : e ∈ db.toList ↔ db[e.1]? = some e.2 :=
  Std.ExtTreeMap.mem_toList_iff_getElem?_eq_some

theorem getElem?_commit_toList (db X : Store V) (k : Key) :
    (commit db (X.toList.map fun e ↦ .set e.1 e.2))[k]? = X[k]?.or db[k]? := by
  have hmem : ∀ w ∈ X.toList.map fun e ↦ Write.set e.1 e.2, w.key = k → w.result = X[k]? := by
    intro w hw hkey
    obtain ⟨e, he, rfl⟩ := List.mem_map.mp hw
    rw [← hkey]
    exact (mem_toList.mp he).symm
  cases hX : X[k]? with
  | some v =>
    refine getElem?_commit_of_forall_eq ?_ fun w hw hkey ↦ (hmem w hw hkey).trans hX
    exact ⟨.set k v, List.mem_map.mpr ⟨(k, v), mem_toList.mpr hX, rfl⟩, rfl⟩
  | none =>
    refine getElem?_commit_of_forall_ne fun w hw hkey ↦ ?_
    obtain ⟨e, he, rfl⟩ := List.mem_map.mp hw
    rw [mem_toList, show e.1 = k from hkey, hX] at he
    simp at he

end KeyValue

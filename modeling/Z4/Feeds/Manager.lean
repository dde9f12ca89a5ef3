import Z4.Foundations.KeyValue
import Z4.Foundations.Runs
import Z4.Proto.Model

/-!
# Feed leases

`Manager` keeps one `leaseHolder` per queue, created with its feed by the first `Lease` and dropped
by the clean-up that finds no lease left. Leases are granted under the manager's lock. They are
removed under the holder's, and only then does the release take the manager's lock to clean up, so
other calls fall in between. The clean-up looks the holder up by the name of the queue again: what
it finds may be a newer one.

Holders and leases live on heaps, in which a pointer is a position. A release is two events,
`remove` and `cleanUp`, and the queue it still has to clean up waits in `cleanUps` meanwhile. A
lease can be removed again, as often as one likes.

## The invariant

`Linked` says that the holders in the map are the ones whose feed is open and that a lease which is
not released is among the leases of its holder. It is what makes a stray clean-up harmless: a
holder without leases is one that nobody uses. `Pending` says that such a holder has a clean-up
coming.
-/

namespace Z4.Manager

open KeyValue

/-- A `leaseHolder`: its queue, whether its feed is created and not closed, and its leases. -/
structure Holder where
  queue : GoString
  feedOpen : Bool := true
  leases : List ℕ := []
deriving DecidableEq

/-- A `Lease`: the queue it was asked for, its holder, and whether it was released. -/
structure Lease where
  queue : GoString
  holder : ℕ
  released : Bool := false
deriving DecidableEq

structure State where
  holders : List Holder := []
  /-- The manager's map. -/
  leases : Store ℕ := ∅
  granted : List Lease := []
  /-- The releases that have removed their lease and still have to clean up. -/
  cleanUps : List GoString := []

inductive Event where
  /-- `Manager.Lease`; `created` is the outcome of creating the feed, if it has to be created. -/
  | lease (queue : GoString) (created : Bool)
  /-- The first half of `Lease.Release`. -/
  | remove (lease : ℕ)
  /-- The second half of a release. -/
  | cleanUp (release : ℕ)

/-- `leaseHolder.Get`. -/
def State.grant (s : State) (queue : GoString) (h : ℕ) : State :=
  { s with
    holders := s.holders.modify h fun x ↦ { x with leases := x.leases ++ [s.granted.length] }
    granted := s.granted ++ [{ queue, holder := h }] }

/-- `newLeaseHolder`, filed under its queue. -/
def State.create (s : State) (queue : GoString) : State :=
  { s with
    holders := s.holders ++ [{ queue }]
    leases := s.leases.insert queue s.holders.length }

/-- `leaseHolder.remove`, up to the call of `onRemove`. -/
def State.remove (s : State) (l : ℕ) (lease : Lease) : State :=
  { s with
    holders := s.holders.modify lease.holder fun x ↦ { x with leases := x.leases.filter (· ≠ l) }
    granted := s.granted.set l { lease with released := true }
    cleanUps := s.cleanUps ++ [lease.queue] }

/-- `leaseHolder.Close` and the removal from the map. -/
def State.close (s : State) (queue : GoString) (h : ℕ) : State :=
  { s with
    holders := s.holders.modify h fun x ↦ { x with feedOpen := false, leases := [] }
    leases := s.leases.erase queue }

/-- `Manager.cleanUpLeases`. Closing a feed returns no error. -/
def State.cleanUpLeases (s : State) (queue : GoString) : State :=
  match s.leases[queue]? with
  | none => s
  | some h =>
    match s.holders[h]? with
    | none => s
    | some x => if 0 < x.leases.length then s else s.close queue h

def step (s : State) : Event → Option State
  | .lease queue created =>
    match s.leases[queue]? with
    | some h => some (s.grant queue h)
    | none =>
      -- a failed creation is an error to the caller and leaves no trace
      some (if created then (s.create queue).grant queue s.holders.length else s)
  | .remove l => s.granted[l]?.map (s.remove l)
  | .cleanUp k =>
    s.cleanUps[k]?.map fun queue ↦
      { s with cleanUps := s.cleanUps.eraseIdx k }.cleanUpLeases queue

/-! ## The invariant -/

/-- The open feeds are those in the map, and leases and holders agree on each other. -/
structure Linked (s : State) : Prop where
  mapped : ∀ (q : GoString) (h : ℕ), s.leases[q]? = some h →
    ∃ x : Holder, s.holders[h]? = some x ∧ x.queue = q ∧ x.feedOpen = true
  opened : ∀ (h : ℕ) (x : Holder), s.holders[h]? = some x → x.feedOpen = true →
    s.leases[x.queue]? = some h
  held : ∀ (l : ℕ) (g : Lease), s.granted[l]? = some g → g.released = false →
    ∃ x : Holder, s.holders[g.holder]? = some x ∧ x.queue = g.queue ∧ x.feedOpen = true ∧
      l ∈ x.leases
  listed : ∀ (h : ℕ) (x : Holder) (l : ℕ), s.holders[h]? = some x → l ∈ x.leases →
    ∃ g : Lease, s.granted[l]? = some g ∧ g.holder = h ∧ g.queue = x.queue ∧ g.released = false

/-- A holder in the map that has no lease has a clean-up coming. -/
def Pending (s : State) : Prop :=
  ∀ (q : GoString) (h : ℕ) (x : Holder), s.leases[q]? = some h → s.holders[h]? = some x →
    x.leases = [] → q ∈ s.cleanUps

section

variable {s t : State} {q queue : GoString} {h l : ℕ} {x : Holder} {g : Lease}

private theorem getElem?_modify_cases {f : Holder → Holder} {xs : List Holder} {i j : ℕ}
    {y : Holder} (hy : (xs.modify i f)[j]? = some y) :
    ∃ x, xs[j]? = some x ∧ (i = j ∧ y = f x ∨ i ≠ j ∧ y = x) := by
  rw [List.getElem?_modify] at hy
  obtain ⟨x, hx, rfl⟩ := Option.map_eq_some_iff.mp hy
  refine ⟨x, hx, ?_⟩
  by_cases hij : i = j
  · exact .inl ⟨hij, if_pos hij⟩
  · exact .inr ⟨hij, if_neg hij⟩

private theorem getElem?_modify_of_eq_some {f : Holder → Holder} {xs : List Holder} {j : ℕ}
    (i : ℕ) (hx : xs[j]? = some x) : (xs.modify i f)[j]? = some (if i = j then f x else x) := by
  rw [List.getElem?_modify, hx]
  rfl

/-! ### Granting a lease -/

theorem Linked.create (hs : Linked s) (hq : s.leases[queue]? = none) : Linked (s.create queue) := by
  have hnew : ∀ (h : ℕ) (x : Holder), (s.create queue).holders[h]? = some x →
      s.holders[h]? = some x ∨ h = s.holders.length ∧ x = { queue } := by
    intro h x hx
    rcases Nat.lt_or_ge h s.holders.length with hlt | hge
    · exact .inl (by rwa [State.create, List.getElem?_append_left hlt] at hx)
    · rw [State.create, List.getElem?_append_right hge, List.getElem?_singleton] at hx
      split at hx
      · exact .inr ⟨by omega, (Option.some.inj hx).symm⟩
      · simp at hx
  have hold : ∀ (h : ℕ) (x : Holder), s.holders[h]? = some x →
      (s.create queue).holders[h]? = some x := by
    intro h x hx
    rw [State.create, List.getElem?_append_left (List.getElem?_eq_some_iff.mp hx).1, hx]
  refine ⟨?_, ?_, ?_, ?_⟩
  · intro q h hqh
    rw [State.create, getElem?_insert] at hqh
    split at hqh
    · rename_i hqq
      rw [← Option.some.inj hqh, ← hqq]
      exact ⟨{ queue }, List.getElem?_concat_length, rfl, rfl⟩
    · obtain ⟨x, hx, hx'⟩ := hs.mapped q h hqh
      exact ⟨x, hold h x hx, hx'⟩
  · intro h x hx hopen
    rw [State.create, getElem?_insert]
    rcases hnew h x hx with hx | ⟨rfl, rfl⟩
    · have hmap := hs.opened h x hx hopen
      rw [if_neg, hmap]
      rintro rfl
      simp [hq] at hmap
    · exact if_pos rfl
  · intro l g hg hrel
    obtain ⟨x, hx, hx'⟩ := hs.held l g hg hrel
    exact ⟨x, hold _ x hx, hx'⟩
  · intro h x l hx hl
    rcases hnew h x hx with hx | ⟨rfl, rfl⟩
    · exact hs.listed h x l hx hl
    · simp at hl

theorem Linked.grant (hs : Linked s) (hq : s.leases[queue]? = some h) :
    Linked (s.grant queue h) := by
  have hgranted : ∀ (l : ℕ) (g : Lease), s.granted[l]? = some g →
      (s.grant queue h).granted[l]? = some g := by
    intro l g hg
    rw [State.grant, List.getElem?_append_left (List.getElem?_eq_some_iff.mp hg).1, hg]
  have hself : (s.grant queue h).granted[s.granted.length]? = some { queue, holder := h } :=
    List.getElem?_concat_length
  obtain ⟨x₀, hx₀, hqx₀, hopen₀⟩ := hs.mapped queue h hq
  refine ⟨?_, ?_, ?_, ?_⟩
  · intro q h' hqh
    obtain ⟨x, hx, hxq, hopen⟩ := hs.mapped q h' hqh
    refine ⟨_, getElem?_modify_of_eq_some h hx, ?_⟩
    split <;> exact ⟨hxq, hopen⟩
  · intro h' y hy hopen
    obtain ⟨x, hx, ⟨-, rfl⟩ | ⟨-, rfl⟩⟩ := getElem?_modify_cases hy
    · exact hs.opened h' x hx hopen
    · exact hs.opened h' _ hx hopen
  · intro l g hg hrel
    rcases Nat.lt_or_ge l s.granted.length with hlt | hge
    · rw [State.grant, List.getElem?_append_left hlt] at hg
      obtain ⟨x, hx, hxq, hopen, hl⟩ := hs.held l g hg hrel
      refine ⟨_, getElem?_modify_of_eq_some h hx, ?_⟩
      split
      · exact ⟨hxq, hopen, List.mem_append_left _ hl⟩
      · exact ⟨hxq, hopen, hl⟩
    · -- the new lease, which its holder lists last
      rw [State.grant, List.getElem?_append_right hge, List.getElem?_singleton] at hg
      split at hg
      · rename_i hl
        obtain rfl : l = s.granted.length := by omega
        obtain rfl := Option.some.inj hg
        refine ⟨_, getElem?_modify_of_eq_some h hx₀, ?_⟩
        rw [if_pos rfl]
        exact ⟨hqx₀, hopen₀, List.mem_append_right _ List.mem_cons_self⟩
      · simp at hg
  · intro h' y l hy hl
    obtain ⟨x, hx, ⟨rfl, rfl⟩ | ⟨-, rfl⟩⟩ := getElem?_modify_cases hy
    · rcases List.mem_append.mp hl with hl | hl
      · obtain ⟨g, hg, hg'⟩ := hs.listed h x l hx hl
        exact ⟨g, hgranted l g hg, hg'⟩
      · obtain rfl : x = x₀ := Option.some.inj (hx.symm.trans hx₀)
        rw [List.mem_singleton.mp hl]
        exact ⟨_, hself, rfl, hqx₀.symm, rfl⟩
    · obtain ⟨g, hg, hg'⟩ := hs.listed h' _ l hx hl
      exact ⟨g, hgranted l g hg, hg'⟩

theorem pending_grant (hq : s.leases[queue]? = some h)
    (hp : ∀ (q : GoString) (h' : ℕ) (x : Holder), q ≠ queue → s.leases[q]? = some h' →
      s.holders[h']? = some x → x.leases = [] → q ∈ s.cleanUps) : Pending (s.grant queue h) := by
  intro q h' y hqh hy hnil
  obtain ⟨x, hx, ⟨rfl, rfl⟩ | ⟨hne, rfl⟩⟩ := getElem?_modify_cases hy
  · simp at hnil
  · refine hp q h' _ ?_ hqh hx hnil
    rintro rfl
    exact hne (Option.some.inj (hq.symm.trans hqh))

/-! ### Removing a lease -/

theorem Linked.remove (hs : Linked s) (hg : s.granted[l]? = some g) : Linked (s.remove l g) := by
  have hlt := (List.getElem?_eq_some_iff.mp hg).1
  have hother : ∀ l', l' ≠ l → (s.remove l g).granted[l']? = s.granted[l']? :=
    fun l' hl' ↦ List.getElem?_set_ne (Ne.symm hl')
  have hself : (s.remove l g).granted[l]? = some { g with released := true } :=
    List.getElem?_set_self hlt
  refine ⟨?_, ?_, ?_, ?_⟩
  · intro q h hqh
    obtain ⟨x, hx, hxq, hopen⟩ := hs.mapped q h hqh
    refine ⟨_, getElem?_modify_of_eq_some g.holder hx, ?_⟩
    split <;> exact ⟨hxq, hopen⟩
  · intro h y hy hopen
    obtain ⟨x, hx, ⟨-, rfl⟩ | ⟨-, rfl⟩⟩ := getElem?_modify_cases hy
    · exact hs.opened h x hx hopen
    · exact hs.opened h _ hx hopen
  · intro l' g' hg' hrel
    by_cases hl : l' = l
    · subst hl
      rw [hself, Option.some.injEq] at hg'
      simp [← hg'] at hrel
    · rw [hother l' hl] at hg'
      obtain ⟨x, hx, hxq, hopen, hmem⟩ := hs.held l' g' hg' hrel
      refine ⟨_, getElem?_modify_of_eq_some g.holder hx, ?_⟩
      split
      · exact ⟨hxq, hopen, List.mem_filter.mpr ⟨hmem, by simpa using hl⟩⟩
      · exact ⟨hxq, hopen, hmem⟩
  · intro h y l' hy hl'
    obtain ⟨x, hx, ⟨-, rfl⟩ | ⟨hne, rfl⟩⟩ := getElem?_modify_cases hy
    · obtain ⟨hmem, hl⟩ := List.mem_filter.mp hl'
      rw [hother l' (by simpa using hl)]
      exact hs.listed h x l' hx hmem
    · obtain ⟨g', hg', hh, hrest⟩ := hs.listed h _ l' hx hl'
      have hl : l' ≠ l := by
        rintro rfl
        rw [hg, Option.some.injEq] at hg'
        exact hne (hg' ▸ hh)
      rw [hother l' hl]
      exact ⟨g', hg', hh, hrest⟩

/-- A holder that loses its last lease to a release is cleaned up by that release. -/
theorem pending_remove (hs : Linked s) (hp : Pending s) (hg : s.granted[l]? = some g) :
    Pending (s.remove l g) := by
  intro q h y hqh hy hnil
  show q ∈ s.cleanUps ++ [g.queue]
  obtain ⟨x, hx, ⟨-, rfl⟩ | ⟨-, rfl⟩⟩ := getElem?_modify_cases hy
  · by_cases hmem : l ∈ x.leases
    · obtain ⟨x', hx', hxq, -⟩ := hs.mapped q h hqh
      obtain rfl : x' = x := Option.some.inj (hx'.symm.trans hx)
      obtain ⟨g', hg', -, hgq, -⟩ := hs.listed h x' l hx hmem
      obtain rfl : g = g' := Option.some.inj (hg.symm.trans hg')
      rw [hgq, hxq]
      exact List.mem_append_right _ List.mem_cons_self
    · refine List.mem_append_left _ (hp q h x hqh hx ?_)
      rw [← hnil]
      refine (List.filter_eq_self.mpr fun l' hl' ↦ ?_).symm
      simpa using fun hc : l' = l ↦ hmem (hc ▸ hl')
  · exact List.mem_append_left _ (hp q h _ hqh hx hnil)

/-! ### Cleaning up -/

theorem Linked.close (hs : Linked s) (hq : s.leases[queue]? = some h)
    (hx : s.holders[h]? = some x) (hnil : x.leases = []) : Linked (s.close queue h) := by
  obtain ⟨x', hx', hxq, -⟩ := hs.mapped queue h hq
  obtain rfl : x' = x := Option.some.inj (hx'.symm.trans hx)
  refine ⟨?_, ?_, ?_, ?_⟩
  · intro q h' hqh
    rw [State.close, getElem?_erase] at hqh
    split at hqh
    · simp at hqh
    · rename_i hne
      obtain ⟨y, hy, hyq, hopen⟩ := hs.mapped q h' hqh
      refine ⟨y, ?_, hyq, hopen⟩
      rw [State.close, getElem?_modify_of_eq_some h hy, if_neg]
      rintro rfl
      exact hne (hxq.symm.trans ((Option.some.inj (hx'.symm.trans hy)) ▸ hyq))
  · intro h' y hy hopen
    obtain ⟨z, hz, ⟨-, rfl⟩ | ⟨hne, rfl⟩⟩ := getElem?_modify_cases hy
    · simp at hopen
    · have hmap := hs.opened h' _ hz hopen
      rw [State.close, getElem?_erase, if_neg, hmap]
      rintro rfl
      exact hne (Option.some.inj (hq.symm.trans hmap))
  · intro l g hg hrel
    obtain ⟨y, hy, hyq, hopen, hl⟩ := hs.held l g hg hrel
    refine ⟨y, ?_, hyq, hopen, hl⟩
    -- the closed holder had no lease
    rw [State.close, getElem?_modify_of_eq_some h hy, if_neg]
    rintro rfl
    rw [← Option.some.inj (hx.symm.trans hy), hnil] at hl
    simp at hl
  · intro h' y l hy hl
    obtain ⟨z, hz, ⟨-, rfl⟩ | ⟨-, rfl⟩⟩ := getElem?_modify_cases hy
    · simp at hl
    · exact hs.listed h' _ l hz hl

theorem cleanUpLeases_cases (hs : Linked s) (queue : GoString) :
    (s.cleanUpLeases queue = s ∧ ∀ (h : ℕ) (x : Holder), s.leases[queue]? = some h →
        s.holders[h]? = some x → x.leases ≠ []) ∨
      ∃ (h : ℕ) (x : Holder), s.leases[queue]? = some h ∧ s.holders[h]? = some x ∧
        x.leases = [] ∧ s.cleanUpLeases queue = s.close queue h := by
  cases hq : s.leases[queue]? with
  | none => exact .inl ⟨by rw [State.cleanUpLeases, hq], by simp⟩
  | some h =>
    obtain ⟨x, hx, -⟩ := hs.mapped queue h hq
    have heq : s.cleanUpLeases queue = if 0 < x.leases.length then s else s.close queue h := by
      simp only [State.cleanUpLeases, hq, hx]
    by_cases hnil : x.leases = []
    · exact .inr ⟨h, x, rfl, hx, hnil, by rw [heq, hnil]; rfl⟩
    · refine .inl ⟨heq.trans (if_pos (List.length_pos_iff.mpr hnil)), fun h' x' hq' hx' ↦ ?_⟩
      obtain rfl := Option.some.inj hq'
      obtain rfl : x = x' := Option.some.inj (hx.symm.trans hx')
      exact hnil

theorem Linked.cleanUpLeases (hs : Linked s) (queue : GoString) :
    Linked (s.cleanUpLeases queue) := by
  obtain ⟨heq, -⟩ | ⟨h, x, hq, hx, hnil, heq⟩ := cleanUpLeases_cases hs queue
  · rw [heq]
    exact hs
  · rw [heq]
    exact hs.close hq hx hnil

theorem pending_cleanUpLeases (hs : Linked s)
    (hp : ∀ (q : GoString) (h : ℕ) (x : Holder), q ≠ queue → s.leases[q]? = some h →
      s.holders[h]? = some x → x.leases = [] → q ∈ s.cleanUps) :
    Pending (s.cleanUpLeases queue) := by
  obtain ⟨heq, hleased⟩ | ⟨h₀, x₀, hq₀, -, -, heq⟩ := cleanUpLeases_cases hs queue
  · rw [heq]
    intro q h x hqh hx hnil
    refine hp q h x ?_ hqh hx hnil
    rintro rfl
    exact hleased h x hqh hx hnil
  · rw [heq]
    intro q h y hqh hy hnil
    rw [State.close, getElem?_erase] at hqh
    split at hqh
    · simp at hqh
    · rename_i hne
      obtain ⟨x, hx, ⟨rfl, -⟩ | ⟨-, rfl⟩⟩ := getElem?_modify_cases hy
      · -- two queues do not share a holder
        obtain ⟨x₁, hx₁, hq₁, -⟩ := hs.mapped q h₀ hqh
        obtain ⟨x₂, hx₂, hq₂, -⟩ := hs.mapped queue h₀ hq₀
        exact absurd (hq₂.symm.trans ((Option.some.inj (hx₁.symm.trans hx₂)) ▸ hq₁)) hne
      · exact hp q h _ (Ne.symm hne) hqh hx hnil

/-! ### The step and the run -/

theorem invariant_step {e : Event} (hs : Linked s ∧ Pending s) (hstep : step s e = some t) :
    Linked t ∧ Pending t := by
  obtain ⟨hlink, hpend⟩ := hs
  cases e with
  | lease queue created =>
    rw [step] at hstep
    split at hstep
    · rename_i h hq
      obtain rfl := Option.some.inj hstep
      exact ⟨hlink.grant hq, pending_grant hq fun q h' x _ ↦ hpend q h' x⟩
    · rename_i hq
      obtain rfl := Option.some.inj hstep
      cases created with
      | false => exact ⟨hlink, hpend⟩
      | true =>
        have hcreated := hlink.create hq
        have hmap : (s.create queue).leases[queue]? = some s.holders.length := by
          rw [State.create, getElem?_insert, if_pos rfl]
        refine ⟨hcreated.grant hmap, pending_grant hmap fun q h' x hne hqh hx hnil ↦ ?_⟩
        rw [State.create, getElem?_insert, if_neg (Ne.symm hne)] at hqh
        obtain ⟨x', hx', -⟩ := hlink.mapped q h' hqh
        rw [State.create, List.getElem?_append_left (List.getElem?_eq_some_iff.mp hx').1] at hx
        exact hpend q h' x hqh hx hnil
  | remove l =>
    obtain ⟨g, hg, rfl⟩ := Option.map_eq_some_iff.mp hstep
    exact ⟨hlink.remove hg, pending_remove hlink hpend hg⟩
  | cleanUp k =>
    obtain ⟨queue, hk, rfl⟩ := Option.map_eq_some_iff.mp hstep
    have hlink' : Linked { s with cleanUps := s.cleanUps.eraseIdx k } :=
      ⟨hlink.mapped, hlink.opened, hlink.held, hlink.listed⟩
    refine ⟨hlink'.cleanUpLeases queue, pending_cleanUpLeases hlink' fun q h x hne hqh hx hnil ↦ ?_⟩
    -- the clean-up that runs is for another queue
    obtain ⟨i, hi⟩ := List.mem_iff_getElem?.mp (hpend q h x hqh hx hnil)
    refine List.mem_eraseIdx_iff_getElem?.mpr ⟨i, ?_, hi⟩
    rintro rfl
    exact hne (Option.some.inj (hi.symm.trans hk))

theorem linked_empty : Linked {} where
  mapped q h hq := by simp at hq
  opened h x hx := by simp at hx
  held l g hg := by simp at hg
  listed h x l hx := by simp at hx

theorem invariant_run {es : List Event} (hrun : Runs.run step {} es = some s) :
    Linked s ∧ Pending s := by
  have hpend : Pending {} := fun q h x hq ↦ by simp at hq
  exact Runs.invariant (P := fun s ↦ Linked s ∧ Pending s) (fun _ _ _ ↦ invariant_step)
    ⟨linked_empty, hpend⟩ hrun

/-- **One open feed per queue, and no lease outlives its feed.** -/
theorem one_open_feed {es : List Event} (hrun : Runs.run step {} es = some s) :
    (∀ (h h' : ℕ) (x x' : Holder), s.holders[h]? = some x → s.holders[h']? = some x' →
        x.feedOpen = true → x'.feedOpen = true → x.queue = x'.queue → h = h') ∧
      (∀ g ∈ s.granted, g.released = false → ∃ x : Holder, s.holders[g.holder]? = some x ∧
        x.queue = g.queue ∧ x.feedOpen = true ∧ s.leases[g.queue]? = some g.holder) ∧
      ∀ q : GoString, (∀ g ∈ s.granted, g.queue = q → g.released = true) → q ∉ s.cleanUps →
        s.leases[q]? = none ∧ ∀ x ∈ s.holders, x.queue = q → x.feedOpen = false := by
  obtain ⟨hlink, hpend⟩ := invariant_run hrun
  refine ⟨?_, ?_, ?_⟩
  · intro h h' x x' hx hx' hopen hopen' hq
    have h1 := hlink.opened h x hx hopen
    have h2 := hlink.opened h' x' hx' hopen'
    rw [hq, h2, Option.some.injEq] at h1
    exact h1.symm
  · intro g hg hrel
    obtain ⟨l, hl⟩ := List.mem_iff_getElem?.mp hg
    obtain ⟨x, hx, hxq, hopen, -⟩ := hlink.held l g hl hrel
    exact ⟨x, hx, hxq, hopen, hxq ▸ hlink.opened g.holder x hx hopen⟩
  · intro q hall hclean
    have hnone : s.leases[q]? = none := by
      by_contra hne
      obtain ⟨h, hq⟩ := Option.ne_none_iff_exists'.mp hne
      obtain ⟨x, hx, hxq, -⟩ := hlink.mapped q h hq
      -- a lease of the holder would be an unreleased lease of the queue
      have hnil : x.leases = [] := by
        refine List.eq_nil_iff_forall_not_mem.mpr fun l hl ↦ ?_
        obtain ⟨g, hg, -, hgq, hrel⟩ := hlink.listed h x l hx hl
        have := hall g (List.mem_of_getElem? hg) (hgq.trans hxq)
        simp [this] at hrel
      exact hclean (hpend q h x hq hx hnil)
    refine ⟨hnone, fun x hx hxq ↦ ?_⟩
    obtain ⟨h, hh⟩ := List.mem_iff_getElem?.mp hx
    by_contra hopen
    have := hlink.opened h x hh (by simpa using hopen)
    rw [hxq, hnone] at this
    simp at this

end

/-- A lease is released twice, and between its two clean-ups the queue gets a new feed. -/
def releasedTwice : List Event :=
  [.lease (lit "q") true, .remove 0, .remove 0, .cleanUp 0, .lease (lit "q") true, .cleanUp 0]

theorem one_open_feed_releasedTwice : ∃ s, Runs.run step {} releasedTwice = some s ∧
    s.holders.map (·.feedOpen) = [false, true] ∧
    ∀ g ∈ s.granted, g.released = false → ∃ x : Holder, s.holders[g.holder]? = some x ∧
      x.queue = g.queue ∧ x.feedOpen = true ∧ s.leases[g.queue]? = some g.holder := by
  have h : (Runs.run step {} releasedTwice).map (fun s ↦ s.holders.map (·.feedOpen))
      = some [false, true] := by decide +kernel
  obtain ⟨s, hrun, hs⟩ := Option.map_eq_some_iff.mp h
  exact ⟨s, hrun, hs, (one_open_feed hrun).2.1⟩

end Z4.Manager

import Mathlib.Data.List.Nodup
import Mathlib.Data.List.Perm.Basic
import Mathlib.Logic.Function.Basic

/-! Memory blocks and who holds them. `sizes p` is the size of the block at `p`,
if it is handed out; `held o` are the blocks the owner `o` has a pointer to. In an
allotment every block that is handed out is held, once and by one owner, and has a
size that fits its owner; no other block is held. -/

namespace OSK.Lib

variable {α β ω : Type*} {fits : ω → β → Prop} {sizes : α → Option β} {held held' : ω → List α}
  {o o' : ω} {p : α} {n : β}

structure Allotted (fits : ω → β → Prop) (sizes : α → Option β) (held : ω → List α) : Prop where
  nodup : ∀ o, (held o).Nodup
  taken : ∀ o, ∀ p ∈ held o, ∃ n, sizes p = some n ∧ fits o n
  apart : ∀ o o' p, p ∈ held o → p ∈ held o' → o = o'
  complete : ∀ p, sizes p ≠ none → ∃ o, p ∈ held o

/-- The order in which an owner holds its blocks does not matter. -/
theorem Allotted.perm (h : Allotted fits sizes held) (hs : ∀ o, (held' o).Perm (held o)) :
    Allotted fits sizes held' := by
  refine ⟨fun o => (hs o).nodup_iff.2 (h.nodup o), fun o p hp => h.taken o p ((hs o).mem_iff.1 hp),
    fun o o' p hp hp' => h.apart o o' p ((hs o).mem_iff.1 hp) ((hs o').mem_iff.1 hp'), ?_⟩
  intro p hp
  obtain ⟨o, ho⟩ := h.complete p hp
  exact ⟨o, (hs o).mem_iff.2 ho⟩

/-- What is not handed out is not held. -/
theorem Allotted.not_held (h : Allotted fits sizes held) (hp : sizes p = none) (o : ω) :
    p ∉ held o := by
  intro hmem
  obtain ⟨n, hn, -⟩ := h.taken o p hmem
  rw [hp] at hn
  cases hn

/-- Nobody holds anything at the start. -/
theorem allotted_nil : Allotted fits (fun _ : α => (none : Option β)) fun _ : ω => [] :=
  ⟨fun _ => List.nodup_nil, by simp, by simp, by simp⟩

/-- A list of the blocks that are handed out is, in some order, what the owners
hold one after another. -/
theorem Allotted.perm_flatMap (h : Allotted fits sizes held) {blocks : List α} {owners : List ω}
    (hblocks : blocks.Nodup) (hmem : ∀ p, p ∈ blocks ↔ sizes p ≠ none) (howners : owners.Nodup)
    (hall : ∀ o p, p ∈ held o → o ∈ owners) : blocks.Perm (owners.flatMap held) := by
  have hdisjoint : owners.Pairwise (Function.onFun List.Disjoint held) :=
    howners.imp fun hne p hp hp' => hne (h.apart _ _ p hp hp')
  refine (List.perm_ext_iff_of_nodup hblocks
    (List.nodup_flatMap.2 ⟨fun o _ => h.nodup o, hdisjoint⟩)).2 fun p => ?_
  rw [hmem, List.mem_flatMap]
  constructor
  · intro hp
    obtain ⟨o, ho⟩ := h.complete p hp
    exact ⟨o, hall o p ho, ho⟩
  · rintro ⟨o, -, ho⟩ hn
    exact h.not_held hn o ho

theorem mem_update [DecidableEq ω] {l : List α} :
    p ∈ Function.update held o l o' ↔ if o' = o then p ∈ l else p ∈ held o' := by
  rw [Function.update_apply]
  split_ifs <;> rfl

variable [DecidableEq α] [DecidableEq ω]

/-- A block is handed out to `o`. -/
theorem Allotted.alloc (h : Allotted fits sizes held) (hp : sizes p = none) (hn : fits o n) :
    Allotted fits (Function.update sizes p (some n)) (Function.update held o (p :: held o)) := by
  have hno := h.not_held hp
  have hold : ∀ o' q, q ∈ Function.update held o (p :: held o) o' → q ≠ p → q ∈ held o' := by
    intro o' q hq hne
    rw [mem_update] at hq
    split_ifs at hq with ho
    · exact ho ▸ (List.mem_cons.1 hq).resolve_left hne
    · exact hq
  have hnew : ∀ o', p ∈ Function.update held o (p :: held o) o' → o' = o := by
    intro o' hq
    by_contra ho
    rw [mem_update, if_neg ho] at hq
    exact hno o' hq
  refine ⟨?_, ?_, ?_, ?_⟩
  · intro o'
    rw [Function.update_apply]
    split_ifs with ho
    · exact List.nodup_cons.2 ⟨hno o, h.nodup o⟩
    · exact h.nodup o'
  · intro o' q hq
    by_cases hqp : q = p
    · subst hqp
      exact ⟨n, Function.update_self .., hnew o' hq ▸ hn⟩
    · rw [Function.update_of_ne hqp]
      exact h.taken o' q (hold o' q hq hqp)
  · intro o₁ o₂ q h₁ h₂
    by_cases hqp : q = p
    · subst hqp
      rw [hnew o₁ h₁, hnew o₂ h₂]
    · exact h.apart o₁ o₂ q (hold o₁ q h₁ hqp) (hold o₂ q h₂ hqp)
  · intro q hq
    by_cases hqp : q = p
    · exact ⟨o, by simp [hqp]⟩
    · rw [Function.update_of_ne hqp] at hq
      obtain ⟨o', ho'⟩ := h.complete q hq
      refine ⟨o', mem_update.2 ?_⟩
      split_ifs with he
      · exact List.mem_cons_of_mem _ (he ▸ ho')
      · exact ho'

/-- The block `p` of `o` is given back. -/
theorem Allotted.free (h : Allotted fits sizes held) (hp : p ∈ held o) :
    Allotted fits (Function.update sizes p none)
      (Function.update held o ((held o).erase p)) := by
  have hmem : ∀ o' q, q ∈ Function.update held o ((held o).erase p) o' ↔ q ∈ held o' ∧ q ≠ p := by
    intro o' q
    rw [mem_update]
    split_ifs with ho
    · subst ho
      rw [(h.nodup o').mem_erase_iff, and_comm]
    · refine ⟨fun hq => ⟨hq, ?_⟩, And.left⟩
      rintro rfl
      exact ho (h.apart o' o q hq hp)
  refine ⟨?_, ?_, ?_, ?_⟩
  · intro o'
    rw [Function.update_apply]
    split_ifs
    · exact (h.nodup o).erase p
    · exact h.nodup o'
  · intro o' q hq
    obtain ⟨hq, hne⟩ := (hmem o' q).1 hq
    rw [Function.update_of_ne hne]
    exact h.taken o' q hq
  · intro o₁ o₂ q h₁ h₂
    exact h.apart o₁ o₂ q ((hmem o₁ q).1 h₁).1 ((hmem o₂ q).1 h₂).1
  · intro q hq
    have hne : q ≠ p := by
      rintro rfl
      exact hq (Function.update_self ..)
    rw [Function.update_of_ne hne] at hq
    obtain ⟨o', ho'⟩ := h.complete q hq
    exact ⟨o', (hmem o' q).2 ⟨ho', hne⟩⟩

/-- The block `p` of `o` passes to `o'`. -/
theorem Allotted.give (h : Allotted fits sizes held) (hp : p ∈ held o) (hne : o' ≠ o)
    (hn : ∀ n, fits o n → fits o' n) :
    Allotted fits sizes
      (Function.update (Function.update held o ((held o).erase p)) o' (p :: held o')) := by
  have hfree := h.free hp
  obtain ⟨n, hs, hf⟩ := h.taken o p hp
  have hback := hfree.alloc (o := o') (n := n) (Function.update_self ..) (hn n hf)
  rwa [Function.update_idem, ← hs, Function.update_eq_self, Function.update_of_ne hne] at hback

end OSK.Lib

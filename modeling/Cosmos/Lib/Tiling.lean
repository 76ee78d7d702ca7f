import Mathlib.Data.Set.Image
import Mathlib.Tactic.Common

/-!
# Tilings

A set of blocks tiles a set of positions when every position is in exactly one block and every block lies in the
set. `Tiling.swap` exchanges some blocks for others over the same positions: splitting, joining and relabelling a
block are its instances.
-/

namespace Cosmos.Lib

variable {β ι : Type}

/-- The blocks `B`, block `b` with the positions `ext b`, tile `S`. -/
structure Tiling (ext : β → Set ι) (S : Set ι) (B : Set β) : Prop where
  nonempty : ∀ b ∈ B, (ext b).Nonempty
  cover : ∀ i, i ∈ S ↔ ∃ b ∈ B, i ∈ ext b
  once : ∀ b ∈ B, ∀ c ∈ B, ∀ i, i ∈ ext b → i ∈ ext c → b = c

namespace Tiling

variable {ext : β → Set ι} {S : Set ι} {B B' : Set β}

theorem mem_of_mem (h : Tiling ext S B) {b : β} {i : ι} (hb : b ∈ B) (hi : i ∈ ext b) : i ∈ S :=
  (h.cover i).mpr ⟨b, hb, hi⟩

theorem existsUnique (h : Tiling ext S B) {i : ι} (hi : i ∈ S) : ∃! b, b ∈ B ∧ i ∈ ext b := by
  obtain ⟨b, hb, hib⟩ := (h.cover i).mp hi
  exact ⟨b, ⟨hb, hib⟩, fun c hc => h.once c hc.1 b hb i hc.2 hib⟩

theorem not_mem_of_ne (h : Tiling ext S B) {b c : β} {i : ι} (hb : b ∈ B) (hc : c ∈ B) (hne : b ≠ c)
    (hi : i ∈ ext b) : i ∉ ext c := fun hic => hne (h.once b hb c hc i hi hic)

theorem singles (S : Set ι) {f : ι → β} (hf : ∀ i, ext (f i) = {i}) : Tiling ext S (f '' S) := by
  refine ⟨?_, fun i => ⟨fun hi => ⟨f i, ⟨i, hi, rfl⟩, by rw [hf]; rfl⟩, ?_⟩, ?_⟩
  · rintro b ⟨i, -, rfl⟩
    exact ⟨i, by rw [hf]; rfl⟩
  · rintro ⟨b, ⟨j, hj, rfl⟩, hi⟩
    rw [hf, Set.mem_singleton_iff] at hi
    exact hi ▸ hj
  · rintro b ⟨j, -, rfl⟩ c ⟨j', -, rfl⟩ i hi hi'
    rw [hf, Set.mem_singleton_iff] at hi hi'
    rw [← hi, ← hi']

theorem swap (h : Tiling ext S B) (Old New : Set β) (hold : ∀ b ∈ Old, b ∈ B)
    (hext : ∀ i, (∃ b ∈ New, i ∈ ext b) ↔ ∃ b ∈ Old, i ∈ ext b) (hne : ∀ b ∈ New, (ext b).Nonempty)
    (honce : ∀ b ∈ New, ∀ c ∈ New, ∀ i, i ∈ ext b → i ∈ ext c → b = c)
    (hB' : ∀ b, b ∈ B' ↔ (b ∈ B ∧ b ∉ Old) ∨ b ∈ New) : Tiling ext S B' := by
  -- a kept block meets no new one, since the new ones lie over old ones
  have happart : ∀ b ∈ B, b ∉ Old → ∀ c ∈ New, ∀ i, i ∈ ext b → i ∉ ext c := by
    intro b hb hbo c hc i hib hic
    obtain ⟨d, hd, hid⟩ := (hext i).mp ⟨c, hc, hic⟩
    exact hbo (h.once b hb d (hold d hd) i hib hid ▸ hd)
  refine ⟨fun b hb => ?_, fun i => ⟨fun hi => ?_, ?_⟩, fun b hb c hc i hib hic => ?_⟩
  · rcases (hB' b).mp hb with ⟨hb, -⟩ | hb
    · exact h.nonempty b hb
    · exact hne b hb
  · obtain ⟨b, hb, hib⟩ := (h.cover i).mp hi
    by_cases hbo : b ∈ Old
    · obtain ⟨c, hc, hic⟩ := (hext i).mpr ⟨b, hbo, hib⟩
      exact ⟨c, (hB' c).mpr (.inr hc), hic⟩
    · exact ⟨b, (hB' b).mpr (.inl ⟨hb, hbo⟩), hib⟩
  · rintro ⟨b, hb, hib⟩
    rcases (hB' b).mp hb with ⟨hb, -⟩ | hb
    · exact h.mem_of_mem hb hib
    · obtain ⟨d, hd, hid⟩ := (hext i).mp ⟨b, hb, hib⟩
      exact h.mem_of_mem (hold d hd) hid
  · rcases (hB' b).mp hb with ⟨hb, hbo⟩ | hb <;> rcases (hB' c).mp hc with ⟨hc, hco⟩ | hc
    · exact h.once b hb c hc i hib hic
    · exact absurd hic (happart b hb hbo c hc i hib)
    · exact absurd hib (happart c hc hco b hb i hic)
    · exact honce b hb c hc i hib hic

end Tiling

end Cosmos.Lib

import Mathlib.Data.Set.Finite.Lattice
import Mathlib.Data.Set.Finite.Basic
import Mathlib.Order.Preorder.Finite

namespace Tyrdbs.NewestWins

variable {ρ κ ι : Type} [LinearOrder ι] (key : ρ → κ) (version : ρ → ι)

def newest (s : Set ρ) : Set ρ :=
  {r | r ∈ s ∧ ∀ r' ∈ s, key r' = key r → version r' ≤ version r}

/-- Records of one key and one version are the same record. -/
def Unambiguous (s : Set ρ) : Prop :=
  ∀ r ∈ s, ∀ r' ∈ s, key r = key r' → version r = version r' → r = r'

variable {key version} {s t u : Set ρ}

variable (key version) in
theorem exists_newest (hs : s.Finite) {r : ρ} (hr : r ∈ s) :
    ∃ r' ∈ newest key version s, key r' = key r ∧ version r ≤ version r' := by
  have hfin : {r' | r' ∈ s ∧ key r' = key r}.Finite := hs.subset (fun _ h => h.1)
  obtain ⟨m, hm, hmax⟩ := hfin.exists_maximalFor version _ ⟨r, hr, rfl⟩
  have htop : ∀ r' ∈ s, key r' = key r → version r' ≤ version m := by
    intro r' hr' hk
    rcases le_total (version r') (version m) with h | h
    · exact h
    · exact hmax ⟨hr', hk⟩ h
  refine ⟨m, ⟨hm.1, fun r' hr' hk => htop r' hr' (hk.trans hm.2)⟩, hm.2, htop r hr rfl⟩

theorem newest_of_between (hs : s.Finite) (h : newest key version s ⊆ t) (h' : t ⊆ s) :
    newest key version t = newest key version s := by
  ext r
  constructor
  · rintro ⟨hr, hmax⟩
    refine ⟨h' hr, fun r' hr' hk => ?_⟩
    obtain ⟨m, hm, hkey, hle⟩ := exists_newest key version hs hr'
    exact hle.trans (hmax m (h hm) (hkey.trans hk))
  · intro hr
    exact ⟨h hr, fun r' hr' hk => hr.2 r' (h' hr') hk⟩

theorem newest_image {ρ' : Type} {key' : ρ' → κ} {version' : ρ' → ι} (f : ρ → ρ')
    (hk : ∀ r, key' (f r) = key r) (hv : ∀ r, version' (f r) = version r) :
    newest key' version' (f '' s) = f '' newest key version s := by
  ext x
  constructor
  · rintro ⟨⟨r, hr, rfl⟩, hmax⟩
    refine ⟨r, ⟨hr, fun r' hr' hkey => ?_⟩, rfl⟩
    have := hmax (f r') ⟨r', hr', rfl⟩ (by rw [hk, hk, hkey])
    rwa [hv, hv] at this
  · rintro ⟨r, ⟨hr, hmax⟩, rfl⟩
    refine ⟨⟨r, hr, rfl⟩, ?_⟩
    rintro _ ⟨r', hr', rfl⟩ hkey
    rw [hv, hv]
    exact hmax r' hr' (by rw [← hk, ← hk, hkey])

omit [LinearOrder ι] in
theorem Unambiguous.mono (h : Unambiguous key version t) (hst : s ⊆ t) :
    Unambiguous key version s :=
  fun r hr r' hr' => h r (hst hr) r' (hst hr')

theorem Unambiguous.newest_unique (h : Unambiguous key version s) {r r' : ρ}
    (hr : r ∈ newest key version s) (hr' : r' ∈ newest key version s) (hk : key r = key r') : r = r' :=
  h r hr.1 r' hr'.1 hk (le_antisymm (hr'.2 r hr.1 hk) (hr.2 r' hr'.1 hk.symm))

theorem newest_inter_self (l : Set ρ) :
    newest key version (newest key version s ∩ l) = newest key version s ∩ l := by
  ext r
  exact ⟨fun h => h.1, fun h => ⟨h, fun r' hr' hk => h.1.2 r' hr'.1.1 hk⟩⟩

/-- Forgetting what is not live commutes with a later update exactly where no
live record of the update is older than a newest record that was forgotten. -/
theorem forget_commutes_iff (hs : s.Finite) (hu : Unambiguous key version s) (l : Set ρ) :
    newest key version (newest key version s ∩ l ∪ t) ∩ l = newest key version (s ∪ t) ∩ l ↔
      ¬ ∃ r ∈ newest key version s, r ∉ l ∧
        ∃ r' ∈ newest key version t, r' ∈ l ∧ key r' = key r ∧ version r' < version r := by
  constructor
  · rintro heq ⟨r, hr, hdead, r', hr', hlive, hk, hlt⟩
    have hmem : r' ∈ newest key version (newest key version s ∩ l ∪ t) ∩ l := by
      refine ⟨⟨Or.inr hr'.1, fun x hx hkx => ?_⟩, hlive⟩
      rcases hx with ⟨hx, hxl⟩ | hx
      · exact absurd (hu.newest_unique hx hr (hkx.trans hk) ▸ hxl) hdead
      · exact hr'.2 x hx hkx
    rw [heq] at hmem
    exact absurd (hmem.1.2 r (Or.inl hr.1) hk.symm) (not_le.mpr hlt)
  · intro hnone
    ext r
    constructor
    · rintro ⟨⟨hr, hmax⟩, hlive⟩
      refine ⟨⟨hr.imp_left (fun h => h.1.1), fun x hx hk => ?_⟩, hlive⟩
      rcases hx with hx | hx
      · obtain ⟨m, hm, hkm, hle⟩ := exists_newest key version hs hx
        refine hle.trans ?_
        by_cases hml : m ∈ l
        · exact hmax m (Or.inl ⟨hm, hml⟩) (hkm.trans hk)
        · rcases hr with hr | hr
          · exact hr.1.2 m hm.1 (hkm.trans hk)
          · by_contra hlt
            exact hnone ⟨m, hm, hml, r, ⟨hr, fun x hx hkx => hmax x (Or.inr hx) hkx⟩, hlive,
              hk.symm.trans hkm.symm, not_le.mp hlt⟩
      · exact hmax x (Or.inr hx) hk
    · rintro ⟨⟨hr, hmax⟩, hlive⟩
      refine ⟨⟨?_, fun x hx hk => hmax x (hx.imp_left (fun h => h.1.1)) hk⟩, hlive⟩
      exact hr.imp_left (fun h => ⟨⟨h, fun x hx hk => hmax x (Or.inl hx) hk⟩, hlive⟩)

end Tyrdbs.NewestWins

import Mathlib.Data.List.Chain
import Mathlib.Data.List.Nodup

namespace Tyrdbs.Links

variable {α : Type}

section Chains

variable {R S : α → α → Prop} {l : List α}

theorem isChain_of_steps (h : l.IsChain R) (hstep : ∀ c ∈ l.dropLast, ∀ d ∈ l.tail, R c d → S c d) :
    l.IsChain S := by
  induction l with
  | nil => exact List.isChain_nil
  | cons c l ih =>
      cases l with
      | nil => exact List.isChain_singleton c
      | cons d l =>
          obtain ⟨hcd, hrest⟩ := List.isChain_cons_cons.mp h
          refine List.isChain_cons_cons.mpr ⟨hstep c (by simp) d (by simp) hcd, ih hrest ?_⟩
          intro a ha b hb
          exact hstep a (by simp [ha]) b (List.mem_cons_of_mem _ hb)

theorem isChain_next (h : l.IsChain R) {c : α} (hc : c ∈ l.dropLast) : ∃ d ∈ l.tail, R c d := by
  induction l with
  | nil => simp at hc
  | cons a l ih =>
      cases l with
      | nil => simp at hc
      | cons b l =>
          obtain ⟨hab, hrest⟩ := List.isChain_cons_cons.mp h
          rw [List.dropLast_cons_cons, List.mem_cons] at hc
          rcases hc with rfl | hc
          · exact ⟨b, by simp, hab⟩
          · obtain ⟨d, hd, hcd⟩ := ih hrest hc
            exact ⟨d, List.mem_cons_of_mem _ hd, hcd⟩

theorem isChain_prev (h : l.IsChain R) {d : α} (hd : d ∈ l.tail) : ∃ c ∈ l.dropLast, R c d := by
  induction l with
  | nil => simp at hd
  | cons a l ih =>
      cases l with
      | nil => simp at hd
      | cons b l =>
          obtain ⟨hab, hrest⟩ := List.isChain_cons_cons.mp h
          rw [List.tail_cons, List.mem_cons] at hd
          rcases hd with rfl | hd
          · exact ⟨a, by simp, hab⟩
          · obtain ⟨c, hc, hcd⟩ := ih hrest hd
            exact ⟨c, by simp [hc], hcd⟩

end Chains

def Joined (next prev : α → α) (a b : α) : Prop := next a = b ∧ prev b = a

def closed (stop : α) (xs : List α) : List α := stop :: (xs ++ [stop])

/-- A sequence whose neighbours are linked both ways; the links of the stop are its two ends. -/
structure Linked (next prev : α → α) (stop : α) (xs : List α) : Prop where
  nodup : (stop :: xs).Nodup
  chain : (closed stop xs).IsChain (Joined next prev)

/-- Following the links from a to b passes the elements of a sequence, in order. -/
def Visits (next : α → α) : α → List α → α → Prop
  | a, [], b => a = b
  | a, x :: xs, b => a = x ∧ Visits next (next x) xs b

variable {next prev next' prev' : α → α} {stop : α} {xs ys zs : List α} {a b e : α}

theorem closed_append (stop : α) (ys zs : List α) :
    closed stop (ys ++ zs) = (stop :: ys) ++ (zs ++ [stop]) := by
  simp [closed]

theorem mem_dropLast_closed {c : α} : c ∈ (closed stop xs).dropLast ↔ c ∈ stop :: xs := by
  rw [closed, ← List.cons_append, List.dropLast_concat]

theorem mem_tail_closed {c : α} : c ∈ (closed stop xs).tail ↔ c ∈ stop :: xs := by
  simp [closed, or_comm]

theorem linked_nil (hnext : next stop = stop) (hprev : prev stop = stop) : Linked next prev stop [] where
  nodup := List.nodup_singleton stop
  chain := List.isChain_cons_cons.mpr ⟨⟨hnext, hprev⟩, List.isChain_singleton stop⟩

theorem Linked.prev_next (h : Linked next prev stop xs) {c : α} (hc : c ∈ stop :: xs) :
    next c ∈ stop :: xs ∧ prev (next c) = c := by
  obtain ⟨d, hd, hcd, hdc⟩ := isChain_next h.chain (mem_dropLast_closed.mpr hc)
  rw [hcd]
  exact ⟨mem_tail_closed.mp hd, hdc⟩

theorem Linked.next_prev (h : Linked next prev stop xs) {d : α} (hd : d ∈ stop :: xs) :
    prev d ∈ stop :: xs ∧ next (prev d) = d := by
  obtain ⟨c, hc, hcd, hdc⟩ := isChain_prev h.chain (mem_tail_closed.mpr hd)
  rw [hdc]
  exact ⟨mem_dropLast_closed.mp hc, hcd⟩

theorem Linked.inverse (h : Linked next prev stop xs) (ha : a ∈ stop :: xs) (hb : b ∈ stop :: xs) :
    next a = b ↔ prev b = a := by
  constructor
  · rintro rfl
    exact (h.prev_next ha).2
  · rintro rfl
    exact (h.next_prev hb).2

theorem Linked.congr (h : Linked next prev stop xs) (hnext : ∀ c ∈ stop :: xs, next' c = next c)
    (hprev : ∀ c ∈ stop :: xs, prev' c = prev c) : Linked next' prev' stop xs where
  nodup := h.nodup
  chain := isChain_of_steps h.chain (fun c hc d hd hcd =>
    ⟨(hnext c (mem_dropLast_closed.mp hc)).trans hcd.1, (hprev d (mem_tail_closed.mp hd)).trans hcd.2⟩)

theorem visits_of_isChain (h : (a :: (xs ++ [b])).IsChain (Joined next prev)) :
    Visits next (next a) xs b := by
  induction xs generalizing a with
  | nil => exact (List.isChain_cons_cons.mp h).1.1
  | cons x xs ih =>
      obtain ⟨hax, hrest⟩ := List.isChain_cons_cons.mp h
      exact ⟨hax.1, ih hrest⟩

theorem Visits.congr (h : Visits next a xs b) (hnext : ∀ c ∈ xs, next' c = next c) : Visits next' a xs b := by
  induction xs generalizing a with
  | nil => exact h
  | cons x xs ih =>
      obtain ⟨hax, hrest⟩ := h
      refine ⟨hax, ?_⟩
      rw [hnext x (List.mem_cons_self ..)]
      exact ih hrest (fun c hc => hnext c (List.mem_cons_of_mem _ hc))

theorem Linked.visits (h : Linked next prev stop xs) : Visits next (next stop) xs stop :=
  visits_of_isChain h.chain

/-- The two elements, or the stop, that a place in the sequence lies between. -/
structure Between (stop : α) (ys zs : List α) (a b : α) : Prop where
  left : (stop :: ys).getLast? = some a
  right : (zs ++ [stop]).head? = some b

section Splice

variable {ms ms' : List α}

theorem Between.left_mem (h : Between stop ys zs a b) : a ∈ stop :: ys := List.mem_of_getLast? h.left

theorem Between.right_mem (h : Between stop ys zs a b) : b ∈ stop :: zs := by
  have hm := List.mem_of_head? h.right
  rw [List.mem_append, List.mem_singleton, or_comm, ← List.mem_cons] at hm
  exact hm

/-- What lies between two neighbours is replaced; only their links on that side change. -/
theorem Linked.splice (h : Linked next prev stop (ys ++ ms ++ zs)) (hab : Between stop ys zs a b)
    (hnodup : (stop :: (ys ++ ms' ++ zs)).Nodup)
    (hnext : ∀ c ∈ stop :: (ys ++ zs), c ≠ a → next' c = next c)
    (hprev : ∀ c ∈ stop :: (ys ++ zs), c ≠ b → prev' c = prev c)
    (hms : (a :: (ms' ++ [b])).IsChain (Joined next' prev')) :
    Linked next' prev' stop (ys ++ ms' ++ zs) := by
  obtain ⟨_, hchain⟩ := h
  rw [closed_append, ← List.cons_append, List.append_assoc] at hchain
  have houter : (stop :: (ys ++ zs)).Nodup := hnodup.sublist (by simp)
  obtain ⟨hstop, houter⟩ := List.nodup_cons.mp houter
  obtain ⟨hys, hzs, hdisjoint⟩ := List.nodup_append.mp houter
  rw [List.mem_append, not_or] at hstop
  obtain ⟨ys', hleft⟩ := List.getLast?_eq_some_iff.mp hab.left
  obtain ⟨zs', hright⟩ := List.head?_eq_some_iff.mp hab.right
  have ha := hab.left_mem
  have hb := hab.right_mem
  have hleftNodup : (ys' ++ [a]).Nodup := hleft ▸ List.nodup_cons.mpr ⟨hstop.1, hys⟩
  have hrightNodup : (b :: zs').Nodup := by
    rw [← hright]
    exact (List.perm_append_singleton stop zs).nodup_iff.mpr (List.nodup_cons.mpr ⟨hstop.2, hzs⟩)
  have hbefore : (ys' ++ [a]).IsChain (Joined next' prev') := by
    rw [← hleft]
    refine isChain_of_steps hchain.left_of_append (fun c hc d hd hcd => ?_)
    have hcys : c ∈ stop :: ys := List.dropLast_subset _ hc
    rw [hleft, List.dropLast_concat] at hc
    rw [List.tail_cons] at hd
    have hca : c ≠ a := by
      rintro rfl
      exact (List.nodup_append.mp hleftNodup).2.2 c hc c (by simp) rfl
    have hdb : d ≠ b := by
      rintro rfl
      rcases List.mem_cons.mp hb with rfl | hb
      · exact hstop.1 hd
      · exact hdisjoint d hd d hb rfl
    refine ⟨(hnext c ?_ hca).trans hcd.1, (hprev d ?_ hdb).trans hcd.2⟩
    · rcases List.mem_cons.mp hcys with rfl | hcys <;> simp [*]
    · simp [hd]
  have hafter : (b :: zs').IsChain (Joined next' prev') := by
    rw [← hright]
    refine isChain_of_steps hchain.right_of_append.right_of_append (fun c hc d hd hcd => ?_)
    have hdzs : d ∈ stop :: zs := by
      have hm := List.mem_of_mem_tail hd
      rw [List.mem_append, List.mem_singleton] at hm
      exact List.mem_cons.mpr hm.symm
    rw [List.dropLast_concat] at hc
    rw [hright, List.tail_cons] at hd
    have hca : c ≠ a := by
      rintro rfl
      rcases List.mem_cons.mp ha with rfl | ha
      · exact hstop.2 hc
      · exact hdisjoint c ha c hc rfl
    have hdb : d ≠ b := by
      rintro rfl
      exact (List.nodup_cons.mp hrightNodup).1 hd
    refine ⟨(hnext c ?_ hca).trans hcd.1, (hprev d ?_ hdb).trans hcd.2⟩
    · simp [hc]
    · rcases List.mem_cons.mp hdzs with rfl | hdzs <;> simp [*]
  refine ⟨hnodup, ?_⟩
  have hwhole : closed stop (ys ++ ms' ++ zs) = ys' ++ [a] ++ ms' ++ ([b] ++ zs') := by
    rw [closed_append, ← List.cons_append, hleft, hright]
    rfl
  have hfirst : (ys' ++ [a] ++ ms' ++ [b]).IsChain (Joined next' prev') := by
    rw [List.append_assoc]
    exact List.IsChain.append_overlap hbefore hms (List.cons_ne_nil _ _)
  rw [hwhole, ← List.append_assoc]
  exact List.IsChain.append_overlap hfirst hafter (List.cons_ne_nil _ _)

theorem Linked.insert (h : Linked next prev stop (ys ++ zs)) (hab : Between stop ys zs a b)
    (he : e ∉ stop :: (ys ++ zs))
    (hnext : ∀ c ∈ stop :: (ys ++ zs), c ≠ a → next' c = next c)
    (hprev : ∀ c ∈ stop :: (ys ++ zs), c ≠ b → prev' c = prev c)
    (hleft : Joined next' prev' a e) (hright : Joined next' prev' e b) :
    Linked next' prev' stop (ys ++ e :: zs) := by
  have hnodup : (stop :: (ys ++ [e] ++ zs)).Nodup := by
    have hperm : (stop :: (ys ++ [e] ++ zs)).Perm (e :: stop :: (ys ++ zs)) := by
      rw [List.append_assoc, List.singleton_append]
      exact (List.perm_middle.cons stop).trans (List.Perm.swap e stop _)
    exact hperm.nodup_iff.mpr (List.nodup_cons.mpr ⟨he, h.nodup⟩)
  have hold : Linked next prev stop (ys ++ [] ++ zs) := by
    rw [List.append_nil]
    exact h
  have hnew : (a :: ([e] ++ [b])).IsChain (Joined next' prev') :=
    List.isChain_cons_cons.mpr ⟨hleft, List.isChain_pair.mpr hright⟩
  have hspliced := hold.splice hab hnodup hnext hprev hnew
  rw [List.append_assoc, List.singleton_append] at hspliced
  exact hspliced

theorem Linked.erase (h : Linked next prev stop (ys ++ e :: zs)) (hab : Between stop ys zs a b)
    (hnext : ∀ c ∈ stop :: (ys ++ zs), c ≠ a → next' c = next c)
    (hprev : ∀ c ∈ stop :: (ys ++ zs), c ≠ b → prev' c = prev c) (hjoined : Joined next' prev' a b) :
    Linked next' prev' stop (ys ++ zs) := by
  have hold : Linked next prev stop (ys ++ [e] ++ zs) := by
    rw [List.append_assoc, List.singleton_append]
    exact h
  have hnodup : (stop :: (ys ++ [] ++ zs)).Nodup := by
    rw [List.append_nil]
    exact h.nodup.sublist (by simp)
  have hspliced := hold.splice hab hnodup hnext hprev (List.isChain_pair.mpr hjoined)
  rw [List.append_nil] at hspliced
  exact hspliced

end Splice

theorem Linked.around (h : Linked next prev stop (ys ++ e :: zs)) :
    Between stop ys zs (prev e) (next e) := by
  have hchain := h.chain
  have hsides : closed stop (ys ++ e :: zs) = (stop :: ys) ++ (e :: (zs ++ [stop])) := closed_append ..
  rw [hsides, List.isChain_append] at hchain
  obtain ⟨_, hrest, hleft⟩ := hchain
  have hright := (List.isChain_cons.mp hrest).1
  constructor
  · have hlast := List.getLast?_eq_some_getLast (List.cons_ne_nil stop ys)
    rw [hlast, (hleft _ hlast e rfl).2]
  · have hhead := List.head?_eq_some_head (List.append_ne_nil_of_right_ne_nil zs (List.cons_ne_nil stop []))
    rw [hhead, (hright _ hhead).1]

theorem Linked.notMem_sides (h : Linked next prev stop (ys ++ e :: zs)) : e ∉ stop :: (ys ++ zs) := by
  have hnodup := h.nodup
  rw [← List.cons_append] at hnodup
  exact (List.nodup_cons.mp (List.nodup_middle.mp hnodup)).1

theorem Linked.next_ne (h : Linked next prev stop xs) {c : α} (hc : c ∈ xs) : next c ≠ c := by
  intro heq
  obtain ⟨ys, zs, rfl⟩ := List.append_of_mem hc
  have hright := h.around.right_mem
  rw [heq] at hright
  exact h.notMem_sides (List.cons_subset_cons _ (List.subset_append_right ys zs) hright)

theorem Linked.between_front (h : Linked next prev stop xs) : Between stop [] xs stop (next stop) := by
  have hchain := h.chain
  rw [closed, List.isChain_cons] at hchain
  have hhead := List.head?_eq_some_head (List.append_ne_nil_of_right_ne_nil xs (List.cons_ne_nil stop []))
  refine ⟨rfl, ?_⟩
  rw [hhead, (hchain.1 _ hhead).1]

theorem Linked.between_back (h : Linked next prev stop xs) : Between stop xs [] (prev stop) stop := by
  have hchain := h.chain
  rw [closed, ← List.cons_append, List.isChain_append] at hchain
  have hlast := List.getLast?_eq_some_getLast (List.cons_ne_nil stop xs)
  refine ⟨?_, rfl⟩
  rw [hlast, (hchain.2.2 _ hlast stop rfl).2]

theorem Linked.front_eq {x : α} (h : Linked next prev stop (x :: xs)) : next stop = x :=
  (Option.some.inj h.between_front.right).symm

theorem Linked.back_eq {x : α} (h : Linked next prev stop (xs ++ [x])) : prev stop = x := by
  have hleft := h.between_back.left
  rw [← List.cons_append, List.getLast?_concat, Option.some.injEq] at hleft
  exact hleft.symm

theorem Linked.back_getLast? (h : Linked next prev stop xs) : prev stop = xs.getLast?.getD stop := by
  have hleft := h.between_back.left
  rw [List.getLast?_cons, Option.some.injEq] at hleft
  exact hleft.symm

theorem Linked.ends_mem (h : Linked next prev stop xs) (hne : xs ≠ []) : next stop ∈ xs ∧ prev stop ∈ xs := by
  constructor
  · obtain ⟨x, rest, rfl⟩ := List.exists_cons_of_ne_nil hne
    rw [h.front_eq]
    exact List.mem_cons_self ..
  · rw [← List.dropLast_append_getLast hne] at h ⊢
    rw [h.back_eq]
    simp

section Places

variable [DecidableEq α]

def placeBefore (p e : α) : List α → List α
  | [] => []
  | x :: xs => if x = p then e :: x :: xs else x :: placeBefore p e xs

def placeAfter (p e : α) : List α → List α
  | [] => []
  | x :: xs => if x = p then x :: e :: xs else x :: placeAfter p e xs

theorem placeAfter_append {p : α} (hp : p ∉ ys) (e : α) :
    placeAfter p e (ys ++ p :: zs) = ys ++ p :: e :: zs := by
  induction ys with
  | nil => exact if_pos rfl
  | cons y ys ih =>
      obtain ⟨hne, hrest⟩ := not_or.mp (fun hor => hp (List.mem_cons.mpr hor))
      rw [List.cons_append, placeAfter, if_neg (Ne.symm hne), ih hrest]
      rfl

theorem mem_placeBefore {p : α} (hp : p ∈ xs) {c : α} : c ∈ placeBefore p e xs ↔ c = e ∨ c ∈ xs := by
  induction xs with
  | nil => exact absurd hp List.not_mem_nil
  | cons x xs ih =>
      rw [placeBefore]
      by_cases hxp : x = p
      · rw [if_pos hxp, List.mem_cons]
      · have hrest : p ∈ xs := (List.mem_cons.mp hp).resolve_left (Ne.symm hxp)
        rw [if_neg hxp, List.mem_cons, ih hrest, List.mem_cons]
        exact or_left_comm

theorem mem_placeAfter {p : α} (hp : p ∈ xs) {c : α} : c ∈ placeAfter p e xs ↔ c = e ∨ c ∈ xs := by
  induction xs with
  | nil => exact absurd hp List.not_mem_nil
  | cons x xs ih =>
      rw [placeAfter]
      by_cases hxp : x = p
      · rw [if_pos hxp, List.mem_cons, List.mem_cons, List.mem_cons]
        exact or_left_comm
      · have hrest : p ∈ xs := (List.mem_cons.mp hp).resolve_left (Ne.symm hxp)
        rw [if_neg hxp, List.mem_cons, ih hrest, List.mem_cons]
        exact or_left_comm

end Places

end Tyrdbs.Links

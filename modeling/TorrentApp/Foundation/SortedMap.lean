import Mathlib.Data.List.Basic

set_option autoImplicit false

/-!
# Ordered maps

A map as the list of its entries in the order of their keys, each key once: what an
ordered container iterates over.  Entries that come in the order of their keys are
stored as they come.
-/

namespace TorrentApp.Foundation

variable {K V : Type}

/-- The keys increase. -/
def SortedMap [LT K] (m : List (K × V)) : Prop := m.Pairwise fun a b => a.1 < b.1

/-- What is stored under `k`. -/
def mapFind [DecidableEq K] (m : List (K × V)) (k : K) : Option V :=
  (m.find? fun e => e.1 = k).map Prod.snd

/-- `v` under `k`, in the place of what was there. -/
def mapPut [DecidableEq K] [LT K] [DecidableLT K] (k : K) (v : V) : List (K × V) → List (K × V)
  | [] => [(k, v)]
  | e :: m =>
      if k < e.1 then (k, v) :: e :: m
      else if k = e.1 then (k, v) :: m
      else e :: mapPut k v m

section Find

variable [DecidableEq K]

theorem mapFind_of_forall_ne {m : List (K × V)} {k : K} (h : ∀ e ∈ m, e.1 ≠ k) :
    mapFind m k = none := by
  have hfind : (m.find? fun e => decide (e.1 = k)) = none := by
    rw [List.find?_eq_none]
    intro e he
    simpa using h e he
  rw [mapFind, hfind]
  rfl

theorem mapFind_of_forall_lt [LT K] [Std.Irrefl (α := K) (· < ·)] {m : List (K × V)} {k : K}
    (h : ∀ e ∈ m, e.1 < k) : mapFind m k = none := by
  apply mapFind_of_forall_ne
  rintro e he rfl
  exact Std.Irrefl.irrefl _ (h e he)

end Find

section Put

variable [DecidableEq K] [LT K] [DecidableLT K]

theorem mem_mapPut {k : K} {v : V} {m : List (K × V)} {e : K × V} (h : e ∈ mapPut k v m) :
    e = (k, v) ∨ e ∈ m := by
  induction m with
  | nil => exact Or.inl (List.mem_singleton.mp h)
  | cons d m ih =>
    rw [mapPut] at h
    split at h
    · exact List.mem_cons.mp h
    · split at h
      · exact (List.mem_cons.mp h).imp_right (List.mem_cons_of_mem d)
      · rcases List.mem_cons.mp h with rfl | hrest
        · exact Or.inr List.mem_cons_self
        · exact (ih hrest).imp_right (List.mem_cons_of_mem d)

variable [Trans (α := K) (· < ·) (· < ·) (· < ·)]

/-- What comes behind all the keys is stored at the end. -/
theorem mapPut_of_forall_lt [Std.Irrefl (α := K) (· < ·)] {m : List (K × V)} {k : K} {v : V}
    (h : ∀ e ∈ m, e.1 < k) : mapPut k v m = m ++ [(k, v)] := by
  induction m with
  | nil => rfl
  | cons e m ih =>
    have he := h e List.mem_cons_self
    have hnot : ¬k < e.1 := fun hk => Std.Irrefl.irrefl _ (Trans.trans hk he)
    have hne : k ≠ e.1 := by
      rintro rfl
      exact Std.Irrefl.irrefl _ he
    rw [mapPut, if_neg hnot, if_neg hne, ih fun d hd => h d (List.mem_cons_of_mem e hd),
      List.cons_append]

theorem sortedMap_mapPut [Std.Trichotomous (α := K) (· < ·)] {m : List (K × V)}
    (h : SortedMap m) (k : K) (v : V) : SortedMap (mapPut k v m) := by
  induction m with
  | nil => exact List.pairwise_singleton _ _
  | cons e m ih =>
    obtain ⟨hfirst, hrest⟩ := List.pairwise_cons.mp h
    rw [mapPut]
    split
    · rename_i hlt
      refine List.pairwise_cons.mpr ⟨fun d hd => ?_, h⟩
      rcases List.mem_cons.mp hd with rfl | hd
      · exact hlt
      · exact Trans.trans hlt (hfirst d hd)
    · rename_i hnot
      split
      · rename_i heq
        exact List.pairwise_cons.mpr ⟨fun d hd => heq ▸ hfirst d hd, hrest⟩
      · rename_i hne
        refine List.pairwise_cons.mpr ⟨fun d hd => ?_, ih hrest⟩
        rcases mem_mapPut hd with rfl | hd
        · exact Decidable.byContradiction fun hge =>
            hne (Std.Trichotomous.trichotomous k e.1 hnot hge)
        · exact hfirst d hd

end Put

end TorrentApp.Foundation

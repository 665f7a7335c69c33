import Plexus.Python.Str
import Mathlib.Algebra.Order.Field.Rat
import Mathlib.Algebra.BigOperators.Group.List
import Mathlib.Data.List.Perm.Basic
import Mathlib.Data.List.Nodup
import Mathlib.Data.List.Perm.Subperm
import Mathlib.Tactic.Ring

/-!
# Python dicts, counters and sets

The script keeps its scores in `dict`s, `defaultdict(float)`s and `Counter`s, and its candidate
pools in `set`s. A dict is modelled as its items in insertion order, which is the order Python
iterates it in; `dictAdd` is the augmented assignment `d[k] += v` with a default of zero.

A `set` is iterated in an order that depends on the hash seed of the process and on the history of
insertions. `SetOrder` leaves that order open: it is any function of the insertion sequence that
lists each element exactly once. Every statement about the script quantifies over it.

Float scores are modelled in exact rational arithmetic throughout.

`range(start, stop, step)` and the slice `l[lo:hi]` are here too, with Python's integer
arguments: `range` raises a `ValueError` for a zero step, and a slice bound counts from the end
when negative and is clamped to the list.
-/

namespace Plexus

section Dict

variable {K V : Type} [DecidableEq K]

/-- `d[k] += v` on a `defaultdict` or `Counter` whose items are `d`: a present key keeps its
place, a new one goes last with `0 + v`. -/
def dictAdd [Add V] : List (K × V) → K → V → List (K × V)
  | [], k, v => [(k, v)]
  | (k', v') :: d, k, v => if k' = k then (k', v' + v) :: d else (k', v') :: dictAdd d k v

theorem dictAdd_ne_nil [Add V] (d : List (K × V)) (k : K) (v : V) : dictAdd d k v ≠ [] := by
  cases d with
  | nil => simp [dictAdd]
  | cons kv d => unfold dictAdd; split_ifs <;> simp

/-- `d.get(k, default)`. -/
def dictGet (d : List (K × V)) (k : K) (default : V) : V := (d.lookup k).getD default

/-- The keys of a dict, in iteration order. -/
def dictKeys (d : List (K × V)) : List K := d.map Prod.fst

/-- A weighted sum over the items of a dict, `sum(v * f(k) for k, v in d.items())`. Every quantity
the rank iterations read from a co-occurrence dict is of this form. -/
def dictSum (d : List (K × ℚ)) (f : K → ℚ) : ℚ := (d.map fun kv ↦ kv.2 * f kv.1).sum

@[simp] theorem dictGet_nil (k : K) (default : V) :
    dictGet ([] : List (K × V)) k default = default :=
  rfl

@[simp] theorem dictGet_cons (k' k : K) (v' default : V) (d : List (K × V)) :
    dictGet ((k', v') :: d) k default = if k' = k then v' else dictGet d k default := by
  by_cases h : k' = k
  · subst h; simp [dictGet]
  · simp [dictGet, List.lookup_cons, h, beq_false_of_ne (Ne.symm h)]

omit [DecidableEq K] in
@[simp] theorem dictSum_cons (kv : K × ℚ) (d : List (K × ℚ)) (f : K → ℚ) :
    dictSum (kv :: d) f = kv.2 * f kv.1 + dictSum d f := by
  simp [dictSum]

theorem mem_dictKeys_dictAdd [Add V] {d : List (K × V)} {k x : K} {v : V} :
    x ∈ dictKeys (dictAdd d k v) ↔ x ∈ dictKeys d ∨ x = k := by
  induction d with
  | nil => simp [dictAdd, dictKeys]
  | cons kv d ih =>
    unfold dictAdd
    split_ifs with h
    · subst h
      simp only [dictKeys, List.map_cons, List.mem_cons]
      exact ⟨.inl, fun h ↦ h.elim id .inl⟩
    · simp only [dictKeys, List.map_cons, List.mem_cons] at ih ⊢
      rw [ih, or_assoc]

/-- `d[k] += v` keeps the keys of a dict without repeats. -/
theorem nodup_dictKeys_dictAdd [Add V] {d : List (K × V)} (hd : (dictKeys d).Nodup) (k : K)
    (v : V) : (dictKeys (dictAdd d k v)).Nodup := by
  induction d with
  | nil => simp [dictAdd, dictKeys]
  | cons kv d ih =>
    rw [dictKeys, List.map_cons, List.nodup_cons] at hd
    unfold dictAdd
    split_ifs with h
    · exact List.nodup_cons.mpr hd
    · exact List.nodup_cons.mpr ⟨fun h' ↦ (mem_dictKeys_dictAdd.mp h').elim hd.1 h, ih hd.2⟩

/-- In a dict without repeated keys, `d.get(k, 0)` is the weighted sum that picks out `k`. -/
theorem dictGet_eq_dictSum {d : List (K × ℚ)} (hd : (dictKeys d).Nodup) (k : K) :
    dictGet d k 0 = dictSum d fun k' ↦ if k' = k then 1 else 0 := by
  induction d with
  | nil => rfl
  | cons kv d ih =>
    obtain ⟨k', v'⟩ := kv
    rw [dictKeys, List.map_cons, List.nodup_cons] at hd
    rw [dictGet_cons, dictSum_cons]
    split_ifs with h
    · subst h
      have hzero : dictSum d (fun k'' ↦ if k'' = k' then 1 else 0) = 0 :=
        List.sum_eq_zero fun x hx ↦ by
          obtain ⟨kv, hkv, rfl⟩ := List.mem_map.mp hx
          have : kv.1 ≠ k' := fun he ↦ hd.1 (List.mem_map.mpr ⟨kv, hkv, he⟩)
          simp [this]
      rw [hzero, mul_one, add_zero]
    · rw [mul_zero, zero_add, ih hd.2]

/-- `d[k] += v` adds `v` to what `d.get(k, 0)` reads and leaves every other key. -/
theorem dictGet_dictAdd [AddZeroClass V] (d : List (K × V)) (k x : K) (v : V) :
    dictGet (dictAdd d k v) x 0 = dictGet d x 0 + if k = x then v else 0 := by
  induction d with
  | nil => by_cases h : k = x <;> simp [dictAdd, h]
  | cons kv d ih =>
    obtain ⟨k', v'⟩ := kv
    by_cases h' : k' = k
    · subst h'
      by_cases h : k' = x <;> simp [dictAdd, h]
    · simp only [dictAdd, if_neg h', dictGet_cons, ih]
      by_cases h : k' = x
      · subst h
        simp [Ne.symm h']
      · simp [h]

/-- `d.get(k, default)` is the default, or the value of an item of `d` under `k`. -/
theorem dictGet_eq_default_or_mem (d : List (K × V)) (k : K) (default : V) :
    dictGet d k default = default ∨ (k, dictGet d k default) ∈ d := by
  induction d with
  | nil => exact .inl rfl
  | cons kv d ih =>
    obtain ⟨k', v'⟩ := kv
    rw [dictGet_cons]
    split_ifs with h
    · exact .inr (h ▸ List.mem_cons_self _ _)
    · exact ih.imp_right (List.mem_cons_of_mem _)

/-- A key that is not in `d` gets the default. -/
theorem dictGet_of_not_mem {d : List (K × V)} {k : K} (h : k ∉ dictKeys d) (default : V) :
    dictGet d k default = default :=
  (dictGet_eq_default_or_mem d k default).resolve_right fun hm ↦ h (List.mem_map.mpr ⟨_, hm, rfl⟩)

/-- A key whose lookup is not the default is in `d`. -/
theorem mem_dictKeys_of_dictGet_ne {d : List (K × V)} {k : K} {default : V}
    (h : dictGet d k default ≠ default) : k ∈ dictKeys d := by
  by_contra hk
  exact h (dictGet_of_not_mem hk default)

/-- In a dict without repeated keys, `d.get(k, default)` is the value of the item under `k`. -/
theorem dictGet_eq_of_mem {d : List (K × V)} (hd : (dictKeys d).Nodup) {k : K} {v : V}
    (h : (k, v) ∈ d) (default : V) : dictGet d k default = v := by
  induction d with
  | nil => simp at h
  | cons kv d ih =>
    obtain ⟨k', v'⟩ := kv
    rw [dictKeys, List.map_cons, List.nodup_cons] at hd
    rw [dictGet_cons]
    rcases List.mem_cons.mp h with h | h
    · obtain ⟨rfl, rfl⟩ := Prod.mk.inj h
      exact if_pos rfl
    · have hk : k' ≠ k := fun he ↦ hd.1 (List.mem_map.mpr ⟨(k, v), h, he.symm⟩)
      rw [if_neg hk, ih hd.2 h]

theorem dictSum_dictAdd (d : List (K × ℚ)) (k : K) (v : ℚ) (f : K → ℚ) :
    dictSum (dictAdd d k v) f = dictSum d f + v * f k := by
  induction d with
  | nil => simp [dictAdd, dictSum]
  | cons kv d ih =>
    obtain ⟨k', v'⟩ := kv
    by_cases hk : k' = k
    · subst hk
      simp only [dictAdd, if_true, dictSum, List.map_cons, List.sum_cons]
      ring
    · simp only [dictAdd, hk, if_false, dictSum, List.map_cons, List.sum_cons] at ih ⊢
      rw [ih]
      ring

/-- The distinct elements of `l` in order of first occurrence: the keys of `Counter(l)`, or of a
dict filled from `l`. -/
def firstOccurrences : List K → List K
  | [] => []
  | x :: xs => x :: (firstOccurrences xs).filter (· ≠ x)

@[simp] theorem mem_firstOccurrences {l : List K} {x : K} : x ∈ firstOccurrences l ↔ x ∈ l := by
  induction l with
  | nil => simp [firstOccurrences]
  | cons y l ih =>
    by_cases h : x = y <;> simp [firstOccurrences, ih, h]

theorem nodup_firstOccurrences (l : List K) : (firstOccurrences l).Nodup := by
  induction l with
  | nil => exact List.nodup_nil
  | cons y l ih => exact List.nodup_cons.mpr ⟨by simp, ih.filter _⟩

/-- `Counter(l)`: each distinct element with its count, in order of first occurrence. -/
def counter (l : List K) : List (K × ℕ) := (firstOccurrences l).map fun x ↦ (x, l.count x)

theorem lookup_map_pair {ks : List K} (g : K → V) (x : K) :
    (ks.map fun k ↦ (k, g k)).lookup x = if x ∈ ks then some (g x) else none := by
  induction ks with
  | nil => simp
  | cons k ks ih =>
    by_cases h : x = k
    · subst h; simp
    · simp [List.lookup_cons, ih, h, beq_false_of_ne h]

theorem dictGet_map_pair {ks : List K} (g : K → V) (x : K) (default : V) :
    dictGet (ks.map fun k ↦ (k, g k)) x default = if x ∈ ks then g x else default := by
  rw [dictGet, lookup_map_pair]
  split_ifs <;> rfl

/-- `counter.get(x, 0)` is the number of occurrences. -/
@[simp] theorem dictGet_counter (l : List K) (x : K) : dictGet (counter l) x 0 = l.count x := by
  rw [dictGet, counter, lookup_map_pair]
  split_ifs with h
  · rfl
  · simpa [eq_comm] using (List.count_eq_zero.mpr (mem_firstOccurrences.not.mp h)).symm

theorem firstOccurrences_eq_self {l : List K} (h : l.Nodup) : firstOccurrences l = l := by
  induction l with
  | nil => rfl
  | cons x l ih =>
    obtain ⟨hx, hl⟩ := List.nodup_cons.mp h
    rw [firstOccurrences, ih hl, List.filter_eq_self.mpr fun y hy ↦ by
      simpa using ne_of_mem_of_not_mem hy hx]

/-- A list with a repeat has fewer distinct elements than entries. -/
theorem length_firstOccurrences_lt {l : List K} (h : ¬l.Nodup) :
    (firstOccurrences l).length < l.length := by
  have hsub : (firstOccurrences l).Subperm l :=
    (nodup_firstOccurrences l).subperm fun x hx ↦ mem_firstOccurrences.mp hx
  refine lt_of_le_of_ne hsub.length_le fun heq ↦ h ?_
  exact (hsub.perm_of_length_le heq.ge).nodup_iff.mp (nodup_firstOccurrences l)

end Dict

/-! ## Sums over lists -/

section Sums

theorem sum_map_sum_map_comm {α β : Type} (l₁ : List α) (l₂ : List β) (F : α → β → ℚ) :
    (l₁.map fun a ↦ (l₂.map fun b ↦ F a b).sum).sum
      = (l₂.map fun b ↦ (l₁.map fun a ↦ F a b).sum).sum := by
  induction l₁ with
  | nil => simp
  | cons a l₁ ih => simp [ih, List.sum_map_add]

/-- Summing a function picked out at one member of a list without repeats. -/
theorem sum_map_ite_eq_of_nodup {K : Type} [DecidableEq K] {V : List K} (hV : V.Nodup) {x : K}
    (hx : x ∈ V) (g : K → ℚ) : (V.map fun b ↦ if x = b then g b else 0).sum = g x := by
  simp only [@eq_comm _ x, List.sum_map_ite_eq, List.count_eq_one_of_mem hV hx]
  simp

/-- A sum over the values a partial map produces, as a sum over its inputs. -/
theorem sum_map_filterMap {α β : Type} (l : List α) (f : α → Option β) (g : β → ℚ) :
    ((l.filterMap f).map g).sum = (l.map fun x ↦ ((f x).map g).getD 0).sum := by
  induction l with
  | nil => rfl
  | cons x l ih => cases h : f x <;> simp [List.filterMap_cons, h, ih]

/-- A filtered sum is the sum of the terms that pass, the others counted as zero. -/
theorem sum_map_filter_eq {β : Type} (l : List β) (p : β → Bool) (f : β → ℚ) :
    ((l.filter p).map f).sum = (l.map fun x ↦ if p x then f x else 0).sum := by
  induction l with
  | nil => rfl
  | cons x l ih => by_cases h : p x <;> simp [List.filter_cons, h, ih]

end Sums

/-! ## Sets -/

/-- An iteration order for Python sets of strings: for each insertion sequence, a listing of its
distinct elements, each exactly once. -/
structure SetOrder where
  /-- The order in which the set built by inserting `l` is iterated. -/
  enum : List Str → List Str
  nodup : ∀ l, (enum l).Nodup
  mem_enum : ∀ l x, x ∈ enum l ↔ x ∈ l

namespace SetOrder

/-- Iteration in order of first insertion. -/
def firstSeen : SetOrder where
  enum := firstOccurrences
  nodup := nodup_firstOccurrences
  mem_enum _ _ := mem_firstOccurrences

/-- Iteration in reverse order of first insertion. -/
def lastSeen : SetOrder where
  enum l := (firstOccurrences l).reverse
  nodup l := List.nodup_reverse.mpr (nodup_firstOccurrences l)
  mem_enum _ _ := by simp

/-- Two iterations of sets with the same elements list the same strings. -/
theorem enum_perm (o₁ o₂ : SetOrder) {l₁ l₂ : List Str} (h : ∀ x, x ∈ l₁ ↔ x ∈ l₂) :
    (o₁.enum l₁).Perm (o₂.enum l₂) :=
  (List.perm_ext_iff_of_nodup (o₁.nodup l₁) (o₂.nodup l₂)).mpr fun x ↦ by
    rw [o₁.mem_enum, o₂.mem_enum, h]

/-- A set of at most one element is iterated in the only possible order. -/
theorem enum_eq_firstOccurrences (ord : SetOrder) {l : List Str}
    (h : (firstOccurrences l).length ≤ 1) : ord.enum l = firstOccurrences l := by
  have hp : (ord.enum l).Perm (firstOccurrences l) := enum_perm ord firstSeen fun _ ↦ Iff.rfl
  match hf : firstOccurrences l, h with
  | [], _ => rw [hf] at hp; exact hp.eq_nil
  | [_], _ => rw [hf] at hp; exact List.perm_singleton.mp hp

end SetOrder

/-- An order in which the items of a dict are read: some reordering of them. Python reads a dict
in insertion order, `DictOrder.insertion`. -/
structure DictOrder (α : Type) where
  /-- The items in reading order. -/
  reorder : List α → List α
  perm : ∀ l, (reorder l).Perm l

/-- Insertion order. -/
def DictOrder.insertion {α : Type} : DictOrder α := ⟨id, List.Perm.refl⟩

/-! ## Ranges and slices -/

/-- A Python `ValueError` and its message. -/
structure ValueError where
  message : String
  deriving DecidableEq, Repr

/-- `len(range(start, stop, step))` for a non-zero step, as CPython computes it. -/
def rangeLength (start stop step : ℤ) : ℕ :=
  if 0 < step then (if start < stop then ((stop - start - 1) / step).toNat + 1 else 0)
  else if stop < start then ((start - stop - 1) / -step).toNat + 1 else 0

/-- `range(start, stop, step)`. -/
def pyRange (start stop step : ℤ) : Except ValueError (List ℤ) :=
  if step = 0 then .error ⟨"range() arg 3 must not be zero"⟩
  else .ok ((List.range (rangeLength start stop step)).map fun k : ℕ ↦ start + step * (k : ℤ))

/-- A slice bound: a negative one counts from the end, and both are clamped to `[0, len]`. -/
def sliceIndex (n : ℕ) (k : ℤ) : ℕ := if k < 0 then (n + k).toNat else min k.toNat n

/-- `l[lo:hi]`. -/
def pySlice {α : Type} (l : List α) (lo hi : ℤ) : List α :=
  (l.drop (sliceIndex l.length lo)).take (sliceIndex l.length hi - sliceIndex l.length lo)

theorem pyRange_zero_step (start stop : ℤ) :
    pyRange start stop 0 = .error ⟨"range() arg 3 must not be zero"⟩ := rfl

/-- Counting down from `0` never passes a non-negative stop. -/
theorem pyRange_of_neg (n : ℕ) {step : ℤ} (h : step < 0) : pyRange 0 n step = .ok [] := by
  have hn : ¬(n : ℤ) < 0 := not_lt.mpr (Int.natCast_nonneg n)
  simp [pyRange, rangeLength, h.ne, not_lt.mpr h.le, hn]

/-- `range(0, n, m)` for `m > 0`: the multiples `m * k` for `k` below `(n - 1) / m + 1`, or none
when `n = 0`. -/
theorem pyRange_of_pos (n : ℕ) {m : ℕ} (hm : 0 < m) :
    pyRange 0 n m = .ok ((List.range (if n = 0 then 0 else (n - 1) / m + 1)).map
      fun k ↦ ((m * k : ℕ) : ℤ)) := by
  have hm' : (0 : ℤ) < m := by exact_mod_cast hm
  have hlen : rangeLength 0 n m = if n = 0 then 0 else (n - 1) / m + 1 := by
    rcases Nat.eq_zero_or_pos n with rfl | hn
    · simp [rangeLength]
    · have hn' : (0 : ℤ) < n := by exact_mod_cast hn
      have hdiv : ((n : ℤ) - 0 - 1) / m = ((n - 1) / m : ℕ) := by
        rw [Int.ofNat_ediv, Nat.cast_sub hn, Nat.cast_one, sub_zero]
      simp only [rangeLength, hm', hn', if_true, hdiv, Int.toNat_ofNat, hn.ne', if_false]
  rw [pyRange, if_neg hm'.ne', hlen]
  congr 1
  refine List.map_congr_left fun k _ ↦ ?_
  push_cast
  ring

/-- A slice `l[a:a + m]` from a non-negative start. -/
theorem pySlice_of_nonneg {α : Type} (l : List α) (a m : ℕ) :
    pySlice l a (a + m) = (l.drop a).take m := by
  have h₁ : ¬((a : ℤ) < 0) := by omega
  have h₂ : ¬((a : ℤ) + m < 0) := by omega
  have h₃ : ((a : ℤ) + m).toNat = a + m := by omega
  simp only [pySlice, sliceIndex, h₁, h₂, h₃, if_false, Int.toNat_ofNat]
  rcases le_total a l.length with h | h
  · rw [min_eq_left h, List.take_eq_take, List.length_drop]
    omega
  · simp [min_eq_right h, List.drop_eq_nil_of_le h]

end Plexus

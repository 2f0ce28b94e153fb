import Mathlib.Data.List.AList
import Mathlib.Tactic.Ring

/-!
# Association lists as string tables

Facts on `AList` with values of one type: `entrySum` adds a number over all entries, and follows a
set and an erase; `load` sets a list of entries one by one, and loading the entries of a table, in
any order, gives the same map. Of events that each set one entry, an entry only sees its own
(`lookup_foldl_insert`).
-/

namespace Nsdci.Lib

variable {κ β : Type}

/-- The entries of a table. -/
def pairs (t : AList fun _ : κ => β) : List (κ × β) := t.entries.map fun e => (e.1, e.2)

theorem mem_pairs {t : AList fun _ : κ => β} {key : κ} {value : β} :
    (key, value) ∈ pairs t ↔ ⟨key, value⟩ ∈ t.entries := by
  constructor
  · intro h
    obtain ⟨⟨k, v⟩, he, heq⟩ := List.mem_map.mp h
    obtain ⟨rfl, rfl⟩ := Prod.mk.inj heq
    exact he
  · exact fun h => List.mem_map.mpr ⟨_, h, rfl⟩

theorem nodup_pairs (t : AList fun _ : κ => β) : ((pairs t).map Prod.fst).Nodup := by
  have hkeys : (pairs t).map Prod.fst = t.keys := by simp [pairs, AList.keys, List.keys]
  exact hkeys ▸ t.keys_nodup

/-- The sum of a number over a list. -/
def sumOf {ι : Type} (f : ι → Nat) (l : List ι) : Nat := l.foldr (fun i n => f i + n) 0

theorem sumOf_cons {ι : Type} (f : ι → Nat) (i : ι) (l : List ι) :
    sumOf f (i :: l) = f i + sumOf f l := rfl

theorem sumOf_append {ι : Type} (f : ι → Nat) (l l' : List ι) :
    sumOf f (l ++ l') = sumOf f l + sumOf f l' := by
  induction l with
  | nil => exact (Nat.zero_add _).symm
  | cons i l ih => rw [List.cons_append, sumOf_cons, sumOf_cons, ih, Nat.add_assoc]

/-- The order does not matter for a sum. -/
theorem sumOf_perm {ι : Type} (f : ι → Nat) {l l' : List ι} (h : l.Perm l') :
    sumOf f l = sumOf f l' := by
  induction h with
  | nil => rfl
  | cons i _ ih => rw [sumOf_cons, sumOf_cons, ih]
  | swap i j l =>
      simp only [sumOf_cons]
      omega
  | trans _ _ ih ih' => exact ih.trans ih'

theorem sumOf_congr {ι : Type} {f g : ι → Nat} {l : List ι} (h : ∀ i ∈ l, f i = g i) :
    sumOf f l = sumOf g l := by
  induction l with
  | nil => rfl
  | cons i l ih =>
      rw [sumOf_cons, sumOf_cons, h i (by simp), ih fun j hj => h j (List.mem_cons_of_mem _ hj)]

theorem le_sumOf {ι : Type} (f : ι → Nat) {i : ι} {l : List ι} (h : i ∈ l) : f i ≤ sumOf f l := by
  induction l with
  | nil => exact absurd h List.not_mem_nil
  | cons j l ih =>
      rw [sumOf_cons]
      rcases List.mem_cons.mp h with rfl | h
      · omega
      · have := ih h
        omega

theorem sumOf_zero {ι : Type} (l : List ι) : sumOf (fun _ => 0) l = 0 := by
  induction l with
  | nil => rfl
  | cons i l ih => exact (Nat.zero_add _).trans ih

theorem sumOf_add {ι : Type} (f g : ι → Nat) (l : List ι) :
    sumOf (fun i => f i + g i) l = sumOf f l + sumOf g l := by
  induction l with
  | nil => rfl
  | cons i l ih =>
      rw [sumOf_cons, sumOf_cons, sumOf_cons, ih]
      omega

/-- A sum of larger numbers. -/
theorem sumOf_le {ι : Type} {f g : ι → Nat} {l : List ι} (h : ∀ i ∈ l, f i ≤ g i) :
    sumOf f l ≤ sumOf g l := by
  induction l with
  | nil => exact Nat.le_refl 0
  | cons i l ih =>
      have hi := h i List.mem_cons_self
      have hrest := ih fun j hj => h j (List.mem_cons_of_mem _ hj)
      rw [sumOf_cons, sumOf_cons]
      omega

/-- One larger number makes a sum larger. -/
theorem sumOf_lt {ι : Type} {f g : ι → Nat} {l : List ι} (h : ∀ i ∈ l, f i ≤ g i) {i : ι}
    (hi : i ∈ l) (hlt : f i < g i) : sumOf f l < sumOf g l := by
  induction l with
  | nil => exact absurd hi List.not_mem_nil
  | cons j l ih =>
      have hj := h j List.mem_cons_self
      have hrest := fun k hk => h k (List.mem_cons_of_mem j hk)
      have hle := sumOf_le hrest
      rw [sumOf_cons, sumOf_cons]
      rcases List.mem_cons.mp hi with rfl | hi
      · omega
      · have hlt' := ih hrest hi
        omega

/-- The parts of a list that have different keys are not more than the list. -/
theorem sumOf_parts_le {ι γ κ : Type} [DecidableEq κ] (f : ι → Nat) (keyOf : ι → Option κ)
    (name : γ → κ) {es : List γ} (hes : (es.map name).Nodup) (l : List ι) :
    sumOf (fun e => sumOf f (l.filter fun i => keyOf i = some (name e))) es ≤ sumOf f l := by
  induction l with
  | nil => exact (sumOf_zero es).le
  | cons i l ih =>
      -- the element is in one part at most
      have hone : sumOf (fun e => if keyOf i = some (name e) then f i else 0) es ≤ f i := by
        clear ih
        induction es with
        | nil => exact Nat.zero_le _
        | cons e es ih =>
            obtain ⟨hnotin, hrest⟩ := List.nodup_cons.mp hes
            rw [sumOf_cons]
            split_ifs with he
            · have hzero : sumOf (fun e' => if keyOf i = some (name e') then f i else 0) es =
                  sumOf (fun _ => 0) es := by
                refine sumOf_congr fun e' he' => if_neg fun he'' => hnotin ?_
                rw [Option.some.inj (he.symm.trans he'')]
                exact List.mem_map_of_mem he'
              rw [hzero, sumOf_zero]
              exact Nat.le_refl _
            · exact (Nat.zero_add _).trans_le (ih hrest)
      have hsplit : sumOf (fun e => sumOf f ((i :: l).filter fun i => keyOf i = some (name e))) es =
          sumOf (fun e => (if keyOf i = some (name e) then f i else 0) +
            sumOf f (l.filter fun i => keyOf i = some (name e))) es := by
        refine sumOf_congr fun e _ => ?_
        by_cases he : keyOf i = some (name e)
        · rw [List.filter_cons_of_pos (by simpa using he), sumOf_cons, if_pos he]
        · rw [List.filter_cons_of_neg (by simpa using he), if_neg he, Nat.zero_add]
      rw [hsplit, sumOf_add, sumOf_cons]
      exact Nat.add_le_add hone ih

/-- A sum of ones is a count. -/
theorem sumOf_eq_countP {ι : Type} (p : ι → Bool) (l : List ι) :
    sumOf (fun i => if p i then 1 else 0) l = l.countP p := by
  induction l with
  | nil => rfl
  | cons i l ih =>
      rw [sumOf_cons, ih, List.countP_cons]
      omega

/-- An element in place of another. -/
theorem sumOf_set {ι : Type} (f : ι → Nat) {l : List ι} {n : Nat} {x : ι} (hx : l[n]? = some x)
    (y : ι) : sumOf f (l.set n y) + f x = sumOf f l + f y := by
  induction l generalizing n with
  | nil => exact absurd hx (by simp)
  | cons i l ih =>
      cases n with
      | zero =>
          obtain rfl : i = x := Option.some.inj hx
          rw [List.set_cons_zero, sumOf_cons, sumOf_cons]
          omega
      | succ n =>
          have hrest := ih hx
          rw [List.set_cons_succ, sumOf_cons, sumOf_cons]
          omega

/-- The length of a list made of parts. -/
theorem length_flatMap_eq {ι τ : Type} (f : ι → List τ) (l : List ι) :
    (l.flatMap f).length = sumOf (fun i => (f i).length) l := by
  induction l with
  | nil => rfl
  | cons i l ih => rw [List.flatMap_cons, List.length_append, sumOf_cons, ih]

/-- The sum of a number over all entries. -/
def entrySum (f : κ → β → Nat) (t : AList fun _ : κ => β) : Nat :=
  sumOf (fun e => f e.1 e.2) t.entries

theorem sumOf_pairs (f : κ → β → Nat) (t : AList fun _ : κ => β) :
    sumOf (fun e => f e.1 e.2) (pairs t) = entrySum f t := by
  simp [sumOf, pairs, entrySum, List.foldr_map]

theorem entrySum_add (f g : κ → β → Nat) (t : AList fun _ : κ => β) :
    entrySum (fun key value => f key value + g key value) t = entrySum f t + entrySum g t :=
  sumOf_add (fun e : Sigma fun _ => β => f e.1 e.2) (fun e => g e.1 e.2) t.entries

theorem entrySum_const (n : Nat) (t : AList fun _ : κ => β) :
    entrySum (fun _ _ => n) t = (pairs t).length * n := by
  rw [entrySum, pairs, List.length_map]
  induction t.entries with
  | nil => simp [sumOf]
  | cons e l ih =>
      rw [sumOf_cons, ih, List.length_cons]
      ring

@[simp] theorem entrySum_empty (f : κ → β → Nat) : entrySum f ∅ = 0 := rfl

variable [DecidableEq κ]

/-- The entry of a key, and the others. -/
theorem perm_erase {t : AList fun _ : κ => β} {key : κ} {value : β}
    (h : t.lookup key = some value) : t.entries.Perm (⟨key, value⟩ :: (t.erase key).entries) := by
  have hentry : (⟨key, value⟩ : Sigma fun _ : κ => β) ∈ t.entries := AList.mem_lookup_iff.mp h
  obtain ⟨v, before, after, -, hentries, herase⟩ :=
    List.exists_of_kerase (List.mem_keys_of_mem hentry)
  have hv : t.lookup key = some v := by
    refine AList.mem_lookup_iff.mpr ?_
    rw [hentries]
    exact List.mem_append_right before List.mem_cons_self
  obtain rfl : value = v := Option.some.inj (h.symm.trans hv)
  show t.entries.Perm (⟨key, value⟩ :: t.entries.kerase key)
  rw [herase, hentries]
  exact List.perm_middle

/-- Erasing a key that is not there changes nothing. -/
theorem erase_eq_self {t : AList fun _ : κ => β} {key : κ} (h : t.lookup key = none) :
    t.erase key = t :=
  AList.ext (List.kerase_of_notMem_keys (AList.lookup_eq_none.mp h))

/-- The number of the entry of a key, and of the others. -/
theorem entrySum_erase (f : κ → β → Nat) (t : AList fun _ : κ => β) (key : κ) :
    entrySum f t = ((t.lookup key).elim 0 (f key)) + entrySum f (t.erase key) := by
  cases hlookup : t.lookup key with
  | none =>
      rw [erase_eq_self hlookup, Option.elim_none, Nat.zero_add]
  | some value =>
      show sumOf _ t.entries = f key value + sumOf _ (t.erase key).entries
      rw [sumOf_perm _ (perm_erase hlookup), sumOf_cons]

/-- A set leaves the other entries. -/
theorem entrySum_insert (f : κ → β → Nat) (t : AList fun _ : κ => β) (key : κ) (value : β) :
    entrySum f (t.insert key value) = f key value + entrySum f (t.erase key) := by
  rw [entrySum, AList.entries_insert, sumOf_cons]
  rfl

theorem mem_pairs_insert {t : AList fun _ : κ => β} {key : κ} {value : β} {e : κ × β}
    (h : e ∈ pairs (t.insert key value)) : e = (key, value) ∨ e ∈ pairs t := by
  obtain ⟨k, v⟩ := e
  rw [mem_pairs, AList.entries_insert, List.mem_cons] at h
  rcases h with h | h
  · cases h
    exact Or.inl rfl
  · exact Or.inr (mem_pairs.mpr ((List.kerase_sublist key t.entries).subset h))

theorem mem_pairs_erase {t : AList fun _ : κ => β} {key : κ} {e : κ × β}
    (h : e ∈ pairs (t.erase key)) : e ∈ pairs t := by
  obtain ⟨k, v⟩ := e
  exact mem_pairs.mpr ((List.kerase_sublist key t.entries).subset (mem_pairs.mp h))

/-- The entries that satisfy a test are one at most when all such have one key. -/
theorem entrySum_test (t : AList fun _ : κ => β) (p : β → Bool) (key : κ)
    (hkey : ∀ name v, t.lookup name = some v → p v = true → name = key) :
    entrySum (fun _ v => if p v then 1 else 0) t =
      if (pairs t).any (fun e => p e.2) then 1 else 0 := by
  have hlookup : ∀ e ∈ pairs t, t.lookup e.1 = some e.2 := fun e he =>
    AList.mem_lookup_iff.mpr (mem_pairs.mp he)
  -- no entry of another key satisfies it
  have hrest : entrySum (fun _ v => if p v then 1 else 0) (t.erase key) = 0 := by
    rw [← sumOf_pairs]
    have hzero : ∀ e ∈ pairs (t.erase key), (if p e.2 then 1 else 0) = 0 := by
      intro e he
      refine if_neg fun hp => ?_
      have heq := hkey e.1 e.2 (hlookup e (mem_pairs_erase he)) hp
      have hsome : (t.erase key).lookup e.1 = some e.2 :=
        AList.mem_lookup_iff.mpr (mem_pairs.mp he)
      rw [heq, AList.lookup_erase] at hsome
      exact absurd hsome (by simp)
    rw [sumOf_congr hzero, sumOf_zero]
  rw [entrySum_erase _ t key, hrest, Nat.add_zero]
  cases hv : t.lookup key with
  | none =>
      rw [Option.elim_none, if_neg]
      intro hany
      obtain ⟨e, he, hp⟩ := List.any_eq_true.mp hany
      have heq := hkey e.1 e.2 (hlookup e he) hp
      rw [← heq, hlookup e he] at hv
      exact absurd hv (by simp)
  | some v =>
      rw [Option.elim_some]
      refine if_congr ?_ rfl rfl
      constructor
      · intro hp
        exact List.any_eq_true.mpr
          ⟨(key, v), mem_pairs.mpr (AList.mem_lookup_iff.mp hv), hp⟩
      · intro hany
        obtain ⟨e, he, hp⟩ := List.any_eq_true.mp hany
        have heq := hkey e.1 e.2 (hlookup e he) hp
        have hsome := hlookup e he
        rw [heq, hv] at hsome
        rw [Option.some.inj hsome]
        exact hp

/-- Set a list of entries. -/
def load (es : List (κ × β)) (t : AList fun _ : κ => β) : AList fun _ : κ => β :=
  es.foldl (fun t e => t.insert e.1 e.2) t

/-- What is loaded is found, and the keys that are not loaded keep their values. -/
theorem lookup_load {es : List (κ × β)} (hes : (es.map Prod.fst).Nodup)
    (t : AList fun _ : κ => β) (key : κ) :
    (∀ value, (key, value) ∈ es → (load es t).lookup key = some value) ∧
      (key ∉ es.map Prod.fst → (load es t).lookup key = t.lookup key) := by
  induction es generalizing t with
  | nil => exact ⟨fun _ h => absurd h List.not_mem_nil, fun _ => rfl⟩
  | cons e es ih =>
      obtain ⟨hnotin, hrest⟩ := List.nodup_cons.mp hes
      obtain ⟨hin, hout⟩ := ih hrest (t.insert e.1 e.2)
      constructor
      · intro value h
        rcases List.mem_cons.mp h with rfl | h
        · exact (hout hnotin).trans (AList.lookup_insert t)
        · exact hin value h
      · intro h
        obtain ⟨hne, hkey⟩ := not_or.mp (fun h' => h (List.mem_cons.mpr h'))
        exact (hout hkey).trans (AList.lookup_insert_ne hne)

/-- **The entries of a table, loaded in any order, are the same map.** -/
theorem lookup_load_pairs {es : List (κ × β)} {t : AList fun _ : κ => β}
    (hes : es.Perm (pairs t)) (key : κ) : (load es ∅).lookup key = t.lookup key := by
  have hnodup : (es.map Prod.fst).Nodup := (hes.map Prod.fst).nodup_iff.mpr (nodup_pairs t)
  obtain ⟨hin, hout⟩ := lookup_load hnodup ∅ key
  cases hlookup : t.lookup key with
  | some value =>
      have hmem : (key, value) ∈ pairs t := mem_pairs.mpr (AList.mem_lookup_iff.mp hlookup)
      exact hin value (hes.mem_iff.mpr hmem)
  | none =>
      have hnotin : key ∉ es.map Prod.fst := by
        intro h
        obtain ⟨⟨k, v⟩, he, rfl⟩ := List.mem_map.mp h
        have hmem := AList.mem_lookup_iff.mpr (mem_pairs.mp (hes.mem_iff.mp he))
        rw [Option.mem_def, hlookup] at hmem
        exact absurd hmem (by simp)
      exact (hout hnotin).trans (AList.lookup_empty key)

/-- Where events set the entry of their key, the entry of a key follows its own events. -/
theorem lookup_foldl_insert {ε : Type} (key : ε → κ) (f : Option β → ε → β) (es : List ε)
    (t : AList fun _ : κ => β) (k : κ) :
    (es.foldl (fun t e => t.insert (key e) (f (t.lookup (key e)) e)) t).lookup k =
      (es.filter fun e => key e = k).foldl (fun o e => some (f o e)) (t.lookup k) := by
  induction es generalizing t with
  | nil => rfl
  | cons e es ih =>
      rw [List.foldl_cons, ih]
      by_cases he : key e = k
      · subst he
        rw [List.filter_cons_of_pos (by simp), List.foldl_cons, AList.lookup_insert]
      · rw [List.filter_cons_of_neg (by simpa using he), AList.lookup_insert_ne (Ne.symm he)]

end Nsdci.Lib

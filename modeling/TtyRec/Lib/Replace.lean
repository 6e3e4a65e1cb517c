import Mathlib.Data.List.Infix

/-!
# Replacing a word

Every occurrence of a word in a list is replaced, from the left, by a word of the same
length.  The list is what stands between the occurrences, joined by the word; so two lists
whose occurrences are at the same places can be told apart after the replacement too.

## Main definitions

* `replaceAll` — the replacement.
* `segments`, `join` — what stands between the occurrences.
* `spans` — the places.
* `firstPlace` — the first place where the word occurs.
* `Chosen` — the places where it is replaced: the leftmost ones that do not overlap.

## Main results

* `replaceAll_eq_iff` — **when two replacements are equal**.
* `replaceAll_rec` — the replacement, from one occurrence to the next.
* `replaceAll_spec` — **what a replacement changes, and what not**.
* `not_infix_replaceAll` — afterwards the word does not occur, if it has nothing in common with
  what it is replaced by.
-/

namespace Replace

variable {α : Type*} [DecidableEq α]

/-- Every occurrence of `p` becomes `u`; the first `k` elements belong to an occurrence that is
replaced already. -/
def replaceAll (p u : List α) : ℕ → List α → List α
  | _, [] => []
  | k + 1, _ :: xs => replaceAll p u k xs
  | 0, x :: xs =>
    if p <+: x :: xs then u ++ replaceAll p u (p.length - 1) xs else x :: replaceAll p u 0 xs

/-- What stands before the first occurrence, and after each of them. -/
def segments (p : List α) : ℕ → List α → List α × List (List α)
  | _, [] => ([], [])
  | k + 1, _ :: xs => segments p k xs
  | 0, x :: xs =>
    if p <+: x :: xs then
      ([], (segments p (p.length - 1) xs).1 :: (segments p (p.length - 1) xs).2)
    else (x :: (segments p 0 xs).1, (segments p 0 xs).2)

/-- The segments with `u` in between. -/
def join (u : List α) (s : List α × List (List α)) : List α := s.1 ++ s.2.flatMap (u ++ ·)

/-- The lengths of the segments, which tell where the occurrences are. -/
def spans (p l : List α) : List ℕ :=
  (segments p 0 l).1.length :: (segments p 0 l).2.map List.length

omit [DecidableEq α] in
theorem join_nil_cons (u s : List α) (ss : List (List α)) :
    join u ([], s :: ss) = u ++ join u (s, ss) := by
  simp [join]

theorem replaceAll_eq_join (p u : List α) (k : ℕ) (l : List α) :
    replaceAll p u k l = join u (segments p k l) := by
  induction l generalizing k with
  | nil => simp [replaceAll, segments, join]
  | cons x xs ih =>
    cases k with
    | succ k => exact ih k
    | zero =>
      rw [replaceAll, segments]
      split
      · rw [ih, join_nil_cons]
      · rw [ih]
        rfl

/-- The segments make up the list. -/
theorem join_segments {p : List α} (hp : p ≠ []) (k : ℕ) (l : List α) :
    join p (segments p k l) = l.drop k := by
  induction l generalizing k with
  | nil => simp [segments, join]
  | cons x xs ih =>
    cases k with
    | succ k => exact ih k
    | zero =>
      rw [segments]
      split
      next hmark =>
        obtain ⟨r, hr⟩ := hmark
        have hlen : 0 < p.length := List.length_pos_iff.mpr hp
        have hdrop : xs.drop (p.length - 1) = r := by
          have hsucc : (x :: xs).drop (p.length - 1 + 1) = r := by
            rw [← hr, Nat.sub_add_cancel hlen, List.drop_left]
          exact hsucc
        rw [join_nil_cons, ih, hdrop, hr, List.drop_zero]
      · exact congrArg (x :: ·) (ih 0)

theorem segments_snd_eq_nil_iff (p l : List α) (hp : p ≠ []) :
    (segments p 0 l).2 = [] ↔ ¬ p <:+: l := by
  induction l with
  | nil =>
    rw [List.infix_nil]
    exact ⟨fun _ => hp, fun _ => rfl⟩
  | cons x xs ih =>
    rw [segments, List.infix_cons_iff]
    split
    next hmark => exact ⟨nofun, fun h => absurd (.inl hmark) h⟩
    next hmark =>
      rw [not_or, ih]
      exact ⟨fun h => ⟨hmark, h⟩, fun h => h.2⟩

omit [DecidableEq α] in
/-- Segments of the same lengths can be told apart whatever is in between. -/
theorem join_inj {u u' : List α} (hu : u.length = u'.length) {s s' : List α × List (List α)}
    (hhead : s.1.length = s'.1.length) (htail : s.2.map List.length = s'.2.map List.length) :
    join u s = join u' s' ↔ s = s' ∧ (s.2 = [] ∨ u = u') := by
  obtain ⟨a, ss⟩ := s
  obtain ⟨a', ss'⟩ := s'
  constructor
  · intro h
    induction ss generalizing a a' ss' with
    | nil =>
      obtain rfl : ss' = [] := List.map_eq_nil_iff.mp htail.symm
      obtain ⟨rfl, -⟩ := List.append_inj h hhead
      exact ⟨rfl, .inl rfl⟩
    | cons b ss ih =>
      cases ss' with
      | nil => cases htail
      | cons b' ss' =>
        obtain ⟨rfl, hrest⟩ := List.append_inj h hhead
        obtain ⟨hb, hss⟩ := List.cons.inj htail
        rw [List.flatMap_cons, List.flatMap_cons, List.append_assoc, List.append_assoc] at hrest
        obtain ⟨rfl, hjoin⟩ := List.append_inj hrest hu
        obtain ⟨heq, -⟩ := ih b b' ss' hb hss hjoin
        cases heq
        exact ⟨rfl, .inr rfl⟩
  · rintro ⟨heq, hnil | rfl⟩
    · cases heq
      obtain rfl : ss = [] := hnil
      rfl
    · rw [heq]

/-- **When two replacements are equal**, the occurrences being at the same places: when the lists
are, and the new words too if they are used. -/
theorem replaceAll_eq_iff {p u u' l l' : List α} (hp : p ≠ []) (hu : u.length = u'.length)
    (hspans : spans p l = spans p l') :
    replaceAll p u 0 l = replaceAll p u' 0 l' ↔ l = l' ∧ (¬ p <:+: l ∨ u = u') := by
  obtain ⟨hhead, htail⟩ := List.cons.inj hspans
  rw [replaceAll_eq_join, replaceAll_eq_join, join_inj hu hhead htail,
    segments_snd_eq_nil_iff p l hp]
  have hinj : segments p 0 l = segments p 0 l' ↔ l = l' := by
    constructor
    · intro h
      have hjoin := congrArg (join p) h
      rwa [join_segments hp, join_segments hp] at hjoin
    · rintro rfl
      rfl
  rw [hinj]

/-! ### From one occurrence to the next -/

/-- The first place where `p` occurs. -/
def firstPlace (p l : List α) : Option ℕ := l.tails.findIdx? fun t => decide (p <+: t)

theorem firstPlace_eq_none_iff {p l : List α} : firstPlace p l = none ↔ ¬ p <:+: l := by
  rw [firstPlace, List.findIdx?_eq_none_iff, List.infix_iff_prefix_suffix]
  simp only [List.mem_tails, decide_eq_false_iff_not, not_exists, not_and]
  exact ⟨fun h t ht hs => h t hs ht, fun h t hs ht => h t ht hs⟩

theorem firstPlace_eq_some_iff {p l : List α} {n : ℕ} :
    firstPlace p l = some n ↔ n ≤ l.length ∧ p <+: l.drop n ∧ ∀ j < n, ¬ p <+: l.drop j := by
  rw [firstPlace, List.findIdx?_eq_some_iff_getElem]
  simp only [List.length_tails, List.getElem_tails, decide_eq_true_eq, Nat.lt_succ_iff,
    exists_prop]

/-- The word occurs behind `a`, and not before. -/
def FirstBehind (p a b : List α) : Prop :=
  ∀ j < a.length, ¬ p <+: (a ++ (p ++ b)).drop j

/-- The list up to its first occurrence, and behind it. -/
theorem exists_firstBehind {p l : List α} {n : ℕ} (h : firstPlace p l = some n) :
    ∃ a b, l = a ++ (p ++ b) ∧ a.length = n ∧ FirstBehind p a b := by
  obtain ⟨hle, ⟨b, hb⟩, hfirst⟩ := firstPlace_eq_some_iff.mp h
  have hl : l = l.take n ++ (p ++ b) := by rw [hb, List.take_append_drop]
  have hlen : (l.take n).length = n := List.length_take_of_le hle
  refine ⟨l.take n, b, hl, hlen, ?_⟩
  intro j hj
  rw [← hl]
  exact hfirst j (hlen ▸ hj)

theorem replaceAll_of_absent {p u l : List α} (h : ¬ p <:+: l) : replaceAll p u 0 l = l := by
  induction l with
  | nil => rfl
  | cons x xs ih =>
    rw [List.infix_cons_iff, not_or] at h
    rw [replaceAll, if_neg h.1, ih h.2]

theorem replaceAll_skip (p u : List α) (k : ℕ) (l : List α) :
    replaceAll p u k l = replaceAll p u 0 (l.drop k) := by
  induction k generalizing l with
  | zero => rfl
  | succ k ih =>
    cases l with
    | nil => rfl
    | cons x xs => exact ih xs

/-- Nothing comes in but the new word. -/
theorem mem_of_mem_replaceAll {p u : List α} {k : ℕ} {l : List α} {x : α}
    (hx : x ∈ replaceAll p u k l) : x ∈ u ∨ x ∈ l := by
  induction l generalizing k with
  | nil => exact .inr hx
  | cons y ys ih =>
    cases k with
    | succ k => exact (ih hx).imp_right (List.mem_cons_of_mem y)
    | zero =>
      rw [replaceAll] at hx
      split at hx
      · rcases List.mem_append.mp hx with hx | hx
        · exact .inl hx
        · exact (ih hx).imp_right (List.mem_cons_of_mem y)
      · rcases List.mem_cons.mp hx with rfl | hx
        · exact .inr List.mem_cons_self
        · exact (ih hx).imp_right (List.mem_cons_of_mem y)

theorem replaceAll_append {p u a b : List α} (hp : p ≠ []) (h : FirstBehind p a b) :
    replaceAll p u 0 (a ++ (p ++ b)) = a ++ (u ++ replaceAll p u 0 b) := by
  induction a with
  | nil =>
    obtain ⟨y, ys, rfl⟩ := List.exists_cons_of_ne_nil hp
    have hpre : y :: ys <+: y :: (ys ++ b) := List.prefix_append (y :: ys) b
    rw [List.nil_append, List.nil_append, List.cons_append, replaceAll, if_pos hpre,
      replaceAll_skip, List.length_cons, Nat.add_sub_cancel, List.drop_left]
  | cons x xs ih =>
    have hx : ¬ p <+: x :: (xs ++ (p ++ b)) := h 0 (Nat.zero_lt_succ _)
    have hxs : FirstBehind p xs b := fun j hj => h (j + 1) (Nat.succ_lt_succ hj)
    rw [List.cons_append, replaceAll, if_neg hx, ih hxs, List.cons_append]

/-- **Induction from one occurrence to the next.** The list has none, or it is cut behind its first
one. -/
theorem replaceAll_rec {p u : List α} (hp : p ≠ []) {P : List α → List α → Prop}
    (hnone : ∀ l, ¬ p <:+: l → P l l)
    (hsome : ∀ a b, FirstBehind p a b → P b (replaceAll p u 0 b) →
      P (a ++ (p ++ b)) (a ++ (u ++ replaceAll p u 0 b))) (l : List α) :
    P l (replaceAll p u 0 l) := by
  have hpos : 0 < p.length := List.length_pos_iff.mpr hp
  induction hn : l.length using Nat.strong_induction_on generalizing l with
  | _ n ih =>
    cases hplace : firstPlace p l with
    | none =>
      have hno := firstPlace_eq_none_iff.mp hplace
      rw [replaceAll_of_absent hno]
      exact hnone l hno
    | some k =>
      obtain ⟨a, b, rfl, -, hfirst⟩ := exists_firstBehind hplace
      rw [replaceAll_append hp hfirst]
      have hlt : b.length < n := by
        rw [← hn, List.length_append, List.length_append]
        omega
      exact hsome a b hfirst (ih b.length hlt b rfl)

/-! ### What is replaced -/

section Places

omit [DecidableEq α]

/-- The places where the word is replaced: it occurs there, and no place before it overlaps. -/
def Chosen (p l : List α) (i : ℕ) : Prop :=
  p <+: l.drop i ∧ ∀ j, ∀ _ : j < i, Chosen p l j → j + p.length ≤ i
termination_by i

theorem chosen_iff {p l : List α} {i : ℕ} :
    Chosen p l i ↔ p <+: l.drop i ∧ ∀ j, j < i → Chosen p l j → j + p.length ≤ i := by
  rw [Chosen]

/-- The first occurrence is a place, and the others are those behind it. -/
theorem chosen_append_iff {p a b : List α} (hp : p ≠ []) (h : FirstBehind p a b) {i : ℕ} :
    Chosen p (a ++ (p ++ b)) i ↔
      i = a.length ∨ ∃ j, i = a.length + (p.length + j) ∧ Chosen p b j := by
  have hpos : 0 < p.length := List.length_pos_iff.mpr hp
  have hdrop : ∀ j, (a ++ (p ++ b)).drop (a.length + (p.length + j)) = b.drop j := by
    intro j
    rw [List.drop_length_add_append, List.drop_length_add_append]
  induction i using Nat.strong_induction_on with
  | _ i ih =>
    rw [chosen_iff]
    constructor
    · rintro ⟨hocc, hbefore⟩
      rcases lt_trichotomy i a.length with hlt | heq | hgt
      · exact absurd hocc (h i hlt)
      · exact .inl heq
      · -- behind the first occurrence, which does not overlap
        have hfar := hbefore a.length hgt ((ih a.length hgt).mpr (.inl rfl))
        obtain ⟨j, rfl⟩ : ∃ j, i = a.length + (p.length + j) :=
          ⟨i - (a.length + p.length), by omega⟩
        refine .inr ⟨j, rfl, chosen_iff.mpr ⟨hdrop j ▸ hocc, ?_⟩⟩
        intro k hk hchosen
        have hfar' := hbefore (a.length + (p.length + k)) (by omega)
          ((ih _ (by omega)).mpr (.inr ⟨k, rfl, hchosen⟩))
        omega
    · rintro (rfl | ⟨j, rfl, hj⟩)
      · refine ⟨?_, fun k hk hchosen => absurd (chosen_iff.mp hchosen).1 (h k hk)⟩
        rw [List.drop_left]
        exact List.prefix_append p b
      · obtain ⟨hocc, hbefore⟩ := chosen_iff.mp hj
        refine ⟨(hdrop j).symm ▸ hocc, ?_⟩
        intro k hk hchosen
        rcases (ih k hk).mp hchosen with rfl | ⟨k', rfl, hk'⟩
        · omega
        · have hfar := hbefore k' (by omega) hk'
          omega

theorem not_chosen_of_absent {p l : List α} (h : ¬ p <:+: l) (i : ℕ) : ¬ Chosen p l i := by
  intro hchosen
  exact h ((chosen_iff.mp hchosen).1.isInfix.trans (List.drop_suffix i l).isInfix)

/-- An element that the word does not have separates its occurrences. -/
theorem infix_append_cons {p a c : List α} {x : α} (hx : x ∉ p) (h : p <:+: a ++ x :: c) :
    p <:+: a ∨ p <:+: c := by
  have hpre : ∀ {a : List α}, p <+: a ++ x :: c → p <+: a := by
    intro a h
    rcases List.prefix_or_prefix_of_prefix h (List.prefix_append a (x :: c)) with hle | ⟨q, rfl⟩
    · exact hle
    · cases q with
      | nil => rw [List.append_nil]
      | cons y q =>
        obtain ⟨rfl, -⟩ := List.cons_prefix_cons.mp ((List.prefix_append_right_inj a).mp h)
        exact absurd (by simp) hx
  induction a with
  | nil =>
    rcases List.infix_cons_iff.mp h with h | h
    · exact .inl (hpre h).isInfix
    · exact .inr h
  | cons y a ih =>
    rw [List.cons_append, List.infix_cons_iff] at h
    rcases h with h | h
    · exact .inl (hpre h).isInfix
    · exact (ih h).imp_left fun h => h.trans (List.suffix_cons y a).isInfix

theorem infix_append_of_disjoint {p u a c : List α} (hu : ∀ x ∈ u, x ∉ p) (hne : u ≠ [])
    (h : p <:+: a ++ (u ++ c)) : p <:+: a ∨ p <:+: c := by
  induction u generalizing a with
  | nil => exact absurd rfl hne
  | cons x u ih =>
    rcases infix_append_cons (hu x List.mem_cons_self) h with h | h
    · exact .inl h
    · cases u with
      | nil => exact .inr h
      | cons y u =>
        have hrest : p <:+: [] ++ (y :: u ++ c) := h
        rcases ih (fun z hz => hu z (List.mem_cons_of_mem x hz)) (List.cons_ne_nil y u) hrest with
          h | h
        · exact .inl (h.trans List.nil_infix)
        · exact .inr h

theorem FirstBehind.absent {p a b : List α} (hp : p ≠ []) (h : FirstBehind p a b) :
    ¬ p <:+: a := by
  rintro ⟨s, t, rfl⟩
  have hpos : 0 < p.length := List.length_pos_iff.mpr hp
  refine h s.length (by simp; omega) ?_
  rw [List.append_assoc, List.append_assoc, List.drop_left]
  exact List.prefix_append _ _

end Places

/-- What a replacement changes: the length stays, the word is replaced at its places, and nothing
is changed outside of them. -/
structure Replaced (p u l r : List α) : Prop where
  length : r.length = l.length
  chosen : ∀ i, Chosen p l i → u <+: r.drop i
  outside : ∀ i, (∀ o, Chosen p l o → ¬ (o ≤ i ∧ i < o + p.length)) → r[i]? = l[i]?

/-- **The replacement**, by a word of the same length: it stands where the word was chosen, and
elsewhere nothing changes.  The induction takes one chosen place after the other. -/
theorem replaceAll_spec {p u : List α} (hp : p ≠ []) (hu : u.length = p.length) (l : List α) :
    Replaced p u l (replaceAll p u 0 l) := by
  refine replaceAll_rec hp ?_ ?_ l
  · intro l hno
    exact ⟨rfl, fun i hi => absurd hi (not_chosen_of_absent hno i), fun _ _ => rfl⟩
  · rintro a b hfirst ⟨hlength, hchosen, houtside⟩
    refine ⟨?_, ?_, ?_⟩
    · simp [hu, hlength]
    · intro i hi
      rcases (chosen_append_iff hp hfirst).mp hi with rfl | ⟨j, rfl, hj⟩
      · rw [List.drop_left]
        exact List.prefix_append u _
      · rw [← hu, List.drop_length_add_append, List.drop_length_add_append]
        exact hchosen j hj
    · intro i hi
      rcases lt_or_ge i a.length with hlt | hge
      · rw [List.getElem?_append_left hlt, List.getElem?_append_left hlt]
      · -- outside of the first place, and so behind it
        have hfar : a.length + p.length ≤ i := by
          by_contra hnear
          exact hi a.length ((chosen_append_iff hp hfirst).mpr (.inl rfl)) ⟨hge, by omega⟩
        obtain ⟨j, rfl⟩ : ∃ j, i = a.length + (p.length + j) :=
          ⟨i - (a.length + p.length), by omega⟩
        -- behind it nothing has moved, as the words have the same length
        have hrest := houtside j fun o ho hcover =>
          hi (a.length + (p.length + o)) ((chosen_append_iff hp hfirst).mpr (.inr ⟨o, rfl, ho⟩))
            (by omega)
        rw [List.getElem?_append_right (by omega), List.getElem?_append_right (by omega),
          List.getElem?_append_right (by omega), List.getElem?_append_right (by omega)]
        have hj : a.length + (p.length + j) - a.length - p.length = j := by omega
        rw [hu, hj]
        exact hrest

/-- **Afterwards the word does not occur**, if it has nothing in common with the other one. -/
theorem not_infix_replaceAll {p u : List α} (hp : p ≠ []) (hne : u ≠ []) (hu : ∀ x ∈ u, x ∉ p)
    (l : List α) : ¬ p <:+: replaceAll p u 0 l := by
  refine replaceAll_rec hp (P := fun _ r => ¬ p <:+: r) (fun l hno => hno) ?_ l
  intro a b hfirst hrest h
  rcases infix_append_of_disjoint hu hne h with h | h
  · exact hfirst.absent hp h
  · exact hrest h

end Replace

import TtyRec.Lib.StreamCodec

/-!
# Streaming decoders from transducers

A transducer that reads one symbol at a time, puts out at most one symbol for it,
and knows when a frame is over, is a streaming decompressor: it needs no queue, so
a call can stop anywhere.  Its frames are the words that lead from the start to the
first final state.

## Main definitions

* `Transducer` — start, step, the final states, and the hints.
* `Transducer.Path s f o` — `f` leads from `s` to the first final state, and puts out
  `o`; `Transducer.Frame` — the frames.
* `Transducer.decoder` — the streaming decompressor.

## Main results

* `Transducer.feed_of_path` — what one call does on the way to a final state.
* `Transducer.decoder_lawful` — **the decoder keeps the promises of its interface.**
-/

namespace StreamCodec

variable {S α β : Type*}

/-- A transducer that stops at final states, with a hint, for every other state, of
how much input it could use next. -/
structure Transducer (S α β : Type*) where
  start : S
  step : S → α → Option (S × Option β)
  final : S → Bool
  hint : S → ℕ
  start_not_final : final start = false
  hint_pos : ∀ s, 0 < hint s

namespace Transducer

variable (T : Transducer S α β)

/-! ### Frames -/

/-- `T.Path s f o`: `f` leads from `s` to a final state, with no final state before
it, and puts out `o`. -/
inductive Path : S → List α → List β → Prop
  | nil {s} : T.final s = true → Path s [] []
  | cons {s a s' o f out} : T.final s = false → T.step s a = some (s', o) → Path s' f out →
      Path s (a :: f) (o.toList ++ out)

/-- The complete frames of a transducer. -/
def Frame (f : List α) (p : List β) : Prop := T.Path T.start f p

/-- `T.Steps s c s' e`: `c` leads from `s` to `s'`, with no final state before it,
and puts out `e`. -/
inductive Steps : S → List α → S → List β → Prop
  | nil {s} : Steps s [] s []
  | cons {s a s' o c t e} : T.final s = false → T.step s a = some (s', o) → Steps s' c t e →
      Steps s (a :: c) t (o.toList ++ e)

variable {T}

/-- A symbol for which nothing is put out. -/
theorem Steps.silent {s s' t : S} {a : α} {c : List α} {e : List β} (hf : T.final s = false)
    (hs : T.step s a = some (s', none)) (h : T.Steps s' c t e) : T.Steps s (a :: c) t e :=
  .cons hf hs h

/-- A symbol for which one is put out. -/
theorem Steps.put {s s' t : S} {a : α} {b : β} {c : List α} {e : List β} (hf : T.final s = false)
    (hs : T.step s a = some (s', some b)) (h : T.Steps s' c t e) : T.Steps s (a :: c) t (b :: e) :=
  .cons hf hs h

theorem Steps.append {s t u : S} {c c' : List α} {e e' : List β} (h : T.Steps s c t e)
    (h' : T.Steps t c' u e') : T.Steps s (c ++ c') u (e ++ e') := by
  induction h with
  | nil => exact h'
  | cons hf hs _ ih =>
    rw [List.append_assoc]
    exact .cons hf hs (ih h')

theorem Steps.path {s t : S} {c f : List α} {e o : List β} (h : T.Steps s c t e)
    (h' : T.Path t f o) : T.Path s (c ++ f) (e ++ o) := by
  induction h with
  | nil => exact h'
  | cons hf hs _ ih =>
    rw [List.append_assoc]
    exact .cons hf hs (ih h')

/-- A path goes on where a beginning of it leads. -/
theorem Path.of_steps {s t : S} {c : List α} {e : List β} (h : T.Steps s c t e) :
    ∀ {g : List α} {p : List β}, T.Path s (c ++ g) p → ∃ o, p = e ++ o ∧ T.Path t g o := by
  induction h with
  | nil =>
    intro g p hp
    exact ⟨p, rfl, hp⟩
  | cons _ hs _ ih =>
    intro g p hp
    rcases hp with _ | ⟨_, hs', hp'⟩
    rw [hs, Option.some.injEq, Prod.mk.injEq] at hs'
    obtain ⟨rfl, rfl⟩ := hs'
    obtain ⟨o, rfl, ho⟩ := ih hp'
    exact ⟨o, (List.append_assoc ..).symm, ho⟩

theorem Path.final_iff {s : S} {f : List α} {o : List β} (h : T.Path s f o) :
    T.final s = true ↔ f = [] := by
  rcases h with hf | ⟨hf, -, -⟩
  · exact ⟨fun _ => rfl, fun _ => hf⟩
  · rw [hf]
    exact ⟨(fun h => nomatch h), (fun h => nomatch h)⟩

theorem Path.out_nil {s : S} {o : List β} (h : T.Path s [] o) : o = [] := by
  cases h with
  | nil => rfl

/-! ### A call -/

variable (T) in
/-- Read until the input is used up, the room is, or a final state is reached:
the state, how much was read, and what was put out. -/
def feed : S → List α → ℕ → Option (S × ℕ × List β)
  | s, [], _ => some (s, 0, [])
  | s, a :: as, cap =>
    if T.final s = true ∨ cap = 0 then some (s, 0, [])
    else
      match T.step s a with
      | none => none
      | some (s', o) =>
        (feed s' as (cap - o.toList.length)).map fun r => (r.1, r.2.1 + 1, o.toList ++ r.2.2)

/-- **What one call does on the way to a final state**, of which `g` is left. -/
theorem feed_of_path : ∀ {inp x g y : List α} {s : S} {o : List β}, T.Path s g o →
    inp ++ x = g ++ y → ∀ cap,
    ∃ s' n out o', T.feed s inp cap = some (s', n, out) ∧ n ≤ inp.length ∧ n ≤ g.length ∧
      out.length ≤ cap ∧ T.Steps s (inp.take n) s' out ∧ inp.take n = g.take n ∧ o = out ++ o' ∧
      T.Path s' (g.drop n) o' ∧ (inp ≠ [] → g ≠ [] → 0 < cap → 0 < n) := by
  intro inp
  induction inp with
  | nil =>
    intro x g y s o hp _ cap
    exact ⟨s, 0, [], o, rfl, le_rfl, Nat.zero_le _, Nat.zero_le _, .nil, by simp, rfl, hp,
      fun h => absurd rfl h⟩
  | cons a as ih =>
    intro x g y s o hp heq cap
    rw [feed]
    by_cases hstop : T.final s = true ∨ cap = 0
    · -- a final state, or no room
      rw [if_pos hstop]
      refine ⟨s, 0, [], o, rfl, Nat.zero_le _, Nat.zero_le _, Nat.zero_le _, .nil, by simp, rfl, hp,
        fun _ hg hcap => ?_⟩
      rcases hstop with hf | hc
      · exact absurd (hp.final_iff.mp hf) hg
      · omega
    · rw [if_neg hstop]
      rcases hp with hf | ⟨hf, hs, hp'⟩
      · exact absurd (.inl hf) hstop
      · rename_i b s' o₁ g' out₁
        rw [List.cons_append, List.cons_append, List.cons.injEq] at heq
        obtain ⟨rfl, heq⟩ := heq
        obtain ⟨s'', n, out, o', hfeed, hn, hng, hout, hsteps, htake, rfl, hp'', -⟩ :=
          ih hp' heq (cap - o₁.toList.length)
        have hlen : o₁.toList.length ≤ cap := by
          cases o₁ with
          | none => exact Nat.zero_le _
          | some b =>
            simp only [Option.toList_some, List.length_singleton]
            omega
        simp only [hs, hfeed, Option.map_some]
        refine ⟨s'', n + 1, o₁.toList ++ out, o', rfl, ?_, ?_, ?_, ?_, ?_, ?_, hp'', ?_⟩
        · simpa using hn
        · simpa using hng
        · rw [List.length_append]
          omega
        · exact .cons hf hs hsteps
        · rw [List.take_succ_cons, List.take_succ_cons, htake]
        · rw [List.append_assoc]
        · intro _ _ _
          exact Nat.succ_pos n

/-- Whatever a call reads is a way through the transducer. -/
theorem steps_of_feed : ∀ {inp : List α} {s s' : S} {cap n : ℕ} {out : List β},
    T.feed s inp cap = some (s', n, out) → T.Steps s (inp.take n) s' out := by
  intro inp
  induction inp with
  | nil =>
    intro s s' cap n out h
    rw [feed, Option.some.injEq, Prod.mk.injEq, Prod.mk.injEq] at h
    obtain ⟨rfl, rfl, rfl⟩ := h
    exact .nil
  | cons a as ih =>
    intro s s' cap n out h
    rw [feed] at h
    by_cases hstop : T.final s = true ∨ cap = 0
    · rw [if_pos hstop, Option.some.injEq, Prod.mk.injEq, Prod.mk.injEq] at h
      obtain ⟨rfl, rfl, rfl⟩ := h
      exact .nil
    · rw [if_neg hstop] at h
      cases hs : T.step s a with
      | none => simp [hs] at h
      | some r =>
        obtain ⟨s₁, o⟩ := r
        simp only [hs, Option.map_eq_some_iff, Prod.exists, Prod.mk.injEq] at h
        obtain ⟨s₂, m, out', hfeed, rfl, rfl, rfl⟩ := h
        rw [List.take_succ_cons]
        exact .cons (by simpa using fun hf => hstop (.inl hf)) hs (ih hfeed)

/-! ### The decoder -/

variable (T) in
/-- The streaming decompressor of a transducer; it is ready for another frame at the
end of one. -/
def decoder (inSize outSize : ℕ) : Decoder S α β where
  create := T.start
  initHint := T.hint T.start
  decompress := fun s inp cap =>
    (T.feed s inp cap).map fun r =>
      if T.final r.1 = true then ⟨T.start, r.2.1, r.2.2, 0⟩ else ⟨r.1, r.2.1, r.2.2, T.hint r.1⟩
  inSize := inSize
  outSize := outSize

/-- The state of the decoder is where its history leads, and is not final. -/
theorem steps_of_at {inSize outSize : ℕ} {d : S} {c : List α} {e : List β}
    (h : (T.decoder inSize outSize).At d c e) : T.Steps T.start c d e ∧ T.final d = false := by
  induction h with
  | create => exact ⟨.nil, T.start_not_final⟩
  | more hat hst hret ih =>
    simp only [decoder, Option.map_eq_some_iff, Prod.exists] at hst
    obtain ⟨s', n, out, hfeed, rfl⟩ := hst
    by_cases hf : T.final s' = true
    · simp [hf] at hret
    · rw [if_neg hf]
      exact ⟨ih.1.append (steps_of_feed hfeed), by simpa using hf⟩
  | done hat hst hret ih =>
    simp only [decoder, Option.map_eq_some_iff, Prod.exists] at hst
    obtain ⟨s', n, out, -, rfl⟩ := hst
    by_cases hf : T.final s' = true
    · rw [if_pos hf]
      exact ⟨.nil, T.start_not_final⟩
    · rw [if_neg hf] at hret
      exact absurd hret (T.hint_pos s').ne'

/-- Inside a frame, the decoder gives the hint of the state where its history leads. -/
theorem decoder_ret {inSize outSize : ℕ} {d : S} {c inp : List α} {e : List β} {cap : ℕ}
    {st : DStep S β} (h : (T.decoder inSize outSize).At d c e)
    (hst : (T.decoder inSize outSize).decompress d inp cap = some st) (hret : st.ret ≠ 0) :
    st.ret = T.hint st.state ∧
      T.Steps T.start (c ++ inp.take st.consumed) st.state (e ++ st.out) := by
  have hsteps := (steps_of_at (h.more hst hret)).1
  refine ⟨?_, hsteps⟩
  simp only [decoder, Option.map_eq_some_iff, Prod.exists] at hst
  obtain ⟨s', n, out, -, rfl⟩ := hst
  by_cases hf : T.final s' = true
  · rw [if_pos hf] at hret
    exact absurd rfl hret
  · rw [if_neg hf]

/-- **The decoder keeps the promises of its interface**, when its buffers are large
enough. -/
theorem decoder_lawful {inSize outSize : ℕ} (hin : ∀ s, T.hint s ≤ inSize) (hout : 0 < outSize) :
    (T.decoder inSize outSize).Lawful T.Frame where
  frame_ne_nil := by
    rintro f p hf rfl
    have := (Path.final_iff hf).mpr rfl
    rw [T.start_not_final] at this
    cases this
  initHint_pos := T.hint_pos T.start
  initHint_le := hin T.start
  outSize_pos := hout
  decompress := by
    rintro d c e f p inp cap hat hf hlt ⟨x, y, hxy⟩ hinp hcap
    obtain ⟨hsteps, hnf⟩ := steps_of_at hat
    -- what is left of the frame, and what the transducer makes of it
    have hc : c = f.take c.length := by
      have := congrArg (List.take c.length) hxy
      rw [List.append_assoc, List.take_left, List.take_append_of_le_length hlt.le] at this
      exact this
    obtain ⟨g, rfl⟩ : ∃ g, f = c ++ g := ⟨f.drop c.length, by
      conv_lhs => rw [← List.take_append_drop c.length f, ← hc]⟩
    obtain ⟨o, rfl, hpath⟩ := Path.of_steps hsteps hf
    rw [List.append_assoc, List.append_assoc, List.append_cancel_left_eq] at hxy
    have hg : g ≠ [] := by
      rintro rfl
      simp at hlt
    obtain ⟨s', n, out, o', hfeed, hn, hng, hlen, -, htake, rfl, hpath', hprog⟩ :=
      feed_of_path hpath hxy cap
    have hend : g.drop n = [] ↔ g.take n = g := by
      rw [List.drop_eq_nil_iff, List.take_eq_self_iff]
    have hheld : c ++ inp.take n = c ++ g → e ++ out = e ++ (out ++ o') := by
      intro h
      rw [List.append_cancel_left_eq, htake, ← hend] at h
      rw [h] at hpath'
      rw [hpath'.out_nil, List.append_nil]
    have hfin : T.final s' = true ↔ c ++ inp.take n = c ++ g := by
      rw [hpath'.final_iff, hend, List.append_cancel_left_eq, htake]
    have hinput : c ++ inp.take n <+: c ++ g := by
      rw [List.prefix_append_right_inj, htake]
      exact List.take_prefix _ _
    have houtput : e ++ out <+: e ++ (out ++ o') := by
      rw [List.prefix_append_right_inj]
      exact List.prefix_append _ _
    simp only [decoder, hfeed, Option.map_some, Option.some.injEq, exists_eq_left']
    by_cases hfinal : T.final s' = true
    · rw [if_pos hfinal]
      exact ⟨hn, hlen, hinput, houtput, .inl (hprog hinp hg hcap),
        ⟨fun _ => ⟨hfin.mp hfinal, hheld (hfin.mp hfinal)⟩, fun _ => rfl⟩, hheld, Nat.zero_le _⟩
    · rw [if_neg hfinal]
      exact ⟨hn, hlen, hinput, houtput, .inl (hprog hinp hg hcap),
        ⟨fun h => absurd h (T.hint_pos s').ne', fun h => absurd (hfin.mpr h.1) hfinal⟩, hheld,
        hin s'⟩

end Transducer

end StreamCodec

import Mathlib
import CowPbs.ShGrammar

/-!
# The shell parses its grammar

With enough calls the parser returns the tree of a derivation, and returns a tree only if there is
one (`parsecmd_iff`). Each function has two lemmas. What it returns is derived from the tokens it has
passed, by induction on the calls. And a derivation is followed to its end if the tokens after it
cannot go on with it, by induction on the derivation.
-/

open Prog Bytes Runs

namespace CowPbs.Sh

section

variable {line : List Byte} {ts ts' : List Tok} {s argc n : ℕ} {E : String → Prop}
  {cmd ret : Cmd (ℕ × ℕ)} {tree : Cmd (List Byte)} {ws ws' : List (List Byte)}
  {l l' : List (List Byte × ℕ × ℕ)} {w : List Byte}

/-! ## Words and redirections -/

theorem redirect_append (c : Cmd (List Byte)) (l l' : List (List Byte × ℕ × ℕ)) :
    redirect (redirect c l) l' = redirect c (l ++ l') :=
  (List.foldl_append ..).symm

/-- The loop of `parseexec` ends. -/
theorem parseargs_end {turns : ℕ} (h0 : 0 ∉ line) (h : At line ts s)
    (hts : Follow [ch '|', ch ')', ch '&', ch ';'] ts) :
    wp E (parseargs line (turns + 1) argc ret) (fun ret' s' => ret' = ret ∧ At line ts s') s := by
  unfold parseargs
  refine wp_seq (peek_spec h0 h (by decide)) fun b s₁ ⟨hb, h₁⟩ => ?_
  cases ts with
  | nil =>
    rw [show b = false from hb, if_neg Bool.false_ne_true]
    refine wp_seq (gettoken_nil h0 h₁) fun r s₂ ⟨hr, h₂⟩ => ?_
    obtain ⟨tok, x⟩ := r
    obtain rfl : tok = 0 := hr
    dsimp only
    rw [if_pos rfl, wp_pure]
    exact ⟨rfl, h₂⟩
  | cons t ts =>
    rw [List.head?_cons, Option.any_some, hts t rfl] at hb
    rw [hb, if_pos rfl, wp_pure]
    exact ⟨rfl, h₁⟩

/-- A turn with a word. -/
theorem parseargs_turn {turns : ℕ} {Q : Cmd (ℕ × ℕ) → ℕ → Prop} (h0 : 0 ∉ line)
    (h : At line (.word w :: ts) s) (hargc : argc + 1 < MAXARGS)
    (hQ : ∀ x s', Counted line x w → At line ts s' →
      wp E (parseredirs line (line.length + 1) (ret.addArg x) >>= parseargs line turns (argc + 1))
        Q s') :
    wp E (parseargs line (turns + 1) argc ret) Q s := by
  unfold parseargs
  refine wp_seq (peek_spec h0 h (by decide)) fun b s₁ ⟨hb, h₁⟩ => ?_
  rw [show b = false from hb, if_neg Bool.false_ne_true]
  refine wp_seq (gettoken_cons h0 h₁) fun r s₂ ⟨hr, h₂, hx⟩ => ?_
  obtain ⟨tok, q, eq⟩ := r
  obtain rfl : tok = ch 'a' := hr
  dsimp only
  rw [if_neg (by decide), if_neg (not_not.2 rfl), if_neg (not_le.2 hargc)]
  exact hQ (q, eq) s₂ (hx w rfl) h₂

theorem parseargs_sound (h0 : 0 ∉ line) (turns : ℕ) :
    ∀ (ts : List Tok) (s argc : ℕ) (ret : Cmd (ℕ × ℕ)) (ws : List (List Byte))
      (l : List (List Byte × ℕ × ℕ)), At line ts s → ts.length < turns →
      Cmd.Rel (Counted line) ret (redirect (.exec ws) l) → ws.length = argc → argc < MAXARGS →
      wp (· ≠ noFuel) (parseargs line turns argc ret) (fun ret' s' => ∃ ts₁ ts₂ ws' l',
        ts = ts₁ ++ ts₂ ∧ Args ts₁ ws' l' ∧ (ws ++ ws').length < MAXARGS ∧
          Cmd.Rel (Counted line) ret' (redirect (.exec (ws ++ ws')) (l ++ l')) ∧ At line ts₂ s') s := by
  induction turns with
  | zero => exact fun ts s argc ret ws l h hlt => absurd hlt (Nat.not_lt_zero _)
  | succ turns ih =>
    intro ts s argc ret ws l h hlt hrel hws hargc
    by_cases hts : Follow [ch '|', ch ')', ch '&', ch ';'] ts
    · refine wp_mono (parseargs_end h0 h hts) fun ret' s' ⟨hret, h'⟩ => ?_
      refine ⟨[], ts, [], [], rfl, .nil, ?_, ?_, h'⟩
      · rwa [List.append_nil, hws]
      · rwa [List.append_nil, List.append_nil, hret]
    obtain ⟨t, ts, rfl⟩ : ∃ t ts', ts = t :: ts' := by
      cases ts with
      | nil => exact absurd nofun hts
      | cons t ts => exact ⟨t, ts, rfl⟩
    have hstarts : t.starts [ch '|', ch ')', ch '&', ch ';'] = false := by
      by_contra hno
      rw [Bool.not_eq_false] at hno
      exact hts fun t' ht => by rwa [← Option.some.inj ht]
    by_cases hw : ∃ w, t = .word w ∧ argc + 1 < MAXARGS
    · obtain ⟨w, rfl, hargc'⟩ := hw
      refine parseargs_turn h0 h hargc' fun x s₂ hx h₂ => ?_
      have hlen : ts.length < line.length + 1 := by
        have := length_lex_le (line.drop s₂)
        rw [h₂.2, List.length_drop] at this
        omega
      rw [List.length_cons] at hlt
      refine wp_seq (parseredirs_sound h0 _ ts s₂ _ _ h₂ hlen (hrel.addArg hx))
        fun ret₁ s₃ ⟨rs, ts₃, l₁, hts₃, hl₁, hrel₁, h₃⟩ => ?_
      rw [redirect_append] at hrel₁
      have hlt₃ : ts₃.length < turns := by
        rw [hts₃, List.length_append] at hlt
        omega
      refine wp_mono (ih ts₃ s₃ (argc + 1) ret₁ (ws ++ [w]) (l ++ l₁) h₃ hlt₃ hrel₁ (by simp [hws])
        hargc') fun ret' s' ⟨ts₁, ts₂, ws', l', hts₁, hargs, hmax, hrel', h'⟩ => ?_
      rw [List.append_assoc, List.singleton_append] at hmax hrel'
      rw [List.append_assoc] at hrel'
      refine ⟨.word w :: (rs ++ ts₁), ts₂, w :: ws', l₁ ++ l', ?_, .cons hl₁ hargs, hmax, hrel', h'⟩
      rw [hts₃, hts₁, List.cons_append, List.append_assoc]
    · -- another token than a word, or too many words
      unfold parseargs
      refine wp_seq (peek_spec h0 h (by decide)) fun b s₁ ⟨hb, h₁⟩ => ?_
      rw [List.head?_cons, Option.any_some, hstarts] at hb
      rw [hb, if_neg Bool.false_ne_true]
      refine wp_seq (gettoken_cons h0 h₁) fun r s₂ ⟨hr, h₂, _⟩ => ?_
      obtain ⟨tok, q, eq⟩ := r
      obtain rfl : tok = t.ret := hr
      dsimp only
      rw [if_neg h.ret_ne_zero]
      by_cases ha : t.ret = ch 'a'
      · obtain ⟨w, rfl⟩ := h.word ha
        rw [if_neg (not_not.2 ha), if_pos (not_lt.1 fun hlt => hw ⟨w, rfl, hlt⟩), wp_throw]
        decide
      · rw [if_pos ha, wp_throw]
        decide

theorem parseargs_complete (h0 : 0 ∉ line) {as : List Tok} (hargs : Args as ws' l') :
    ∀ (turns s argc : ℕ) (ret : Cmd (ℕ × ℕ)) (ws : List (List Byte))
      (l : List (List Byte × ℕ × ℕ)), At line (as ++ ts) s → as.length < turns →
      Follow [ch '|', ch ')', ch '&', ch ';'] ts →
      Cmd.Rel (Counted line) ret (redirect (.exec ws) l) → ws.length = argc →
      (ws ++ ws').length < MAXARGS →
      wp E (parseargs line turns argc ret) (fun ret' s' =>
        Cmd.Rel (Counted line) ret' (redirect (.exec (ws ++ ws')) (l ++ l')) ∧ At line ts s') s := by
  induction hargs with
  | nil =>
    intro turns s argc ret ws l h hlt hts hrel hws hmax
    obtain ⟨turns, rfl⟩ := Nat.exists_eq_add_one_of_ne_zero (Nat.ne_of_gt hlt)
    refine wp_mono (parseargs_end h0 h hts) fun ret' s' ⟨hret, h'⟩ => ⟨?_, h'⟩
    rwa [List.append_nil, List.append_nil, hret]
  | @cons w rs l₁ as ws' l' hl hargs ih =>
    intro turns s argc ret ws l h hlt hts hrel hws hmax
    rw [List.length_cons, List.length_append] at hlt
    obtain ⟨turns, rfl⟩ := Nat.exists_eq_add_one_of_ne_zero (Nat.ne_of_gt (Nat.zero_lt_of_lt hlt))
    have hargc : argc + 1 < MAXARGS := by
      rw [List.length_append, List.length_cons] at hmax
      omega
    rw [List.cons_append, List.append_assoc] at h
    refine parseargs_turn h0 h hargc fun x s₂ hx h₂ => ?_
    have hlen : rs.length < line.length + 1 := by
      have := length_lex_le (line.drop s₂)
      rw [h₂.2, List.length_drop, List.length_append] at this
      omega
    -- what follows the redirections is a word or what follows the command
    have hnot : (as ++ ts).head?.any (Tok.starts [ch '<', ch '>']) = false := by
      cases hargs with
      | nil => exact hts.not_starts (by decide)
      | cons => rfl
    refine wp_seq (parseredirs_complete h0 hl _ s₂ _ _ h₂ hlen hnot (hrel.addArg hx))
      fun ret₁ s₃ ⟨hrel₁, h₃⟩ => ?_
    rw [redirect_append] at hrel₁
    refine wp_mono (ih turns s₃ (argc + 1) ret₁ (ws ++ [w]) (l ++ l₁) h₃ (by omega) hts hrel₁
      (by simp [hws]) (by simpa using hmax)) fun ret' s' ⟨hrel', h'⟩ => ⟨?_, h'⟩
    rw [List.append_assoc, List.singleton_append, List.append_assoc] at hrel'
    exact hrel'

/-! ## Background commands -/

/-- The loop of `parseline` passes each `&`. -/
theorem parseamps_spec (h0 : 0 ∉ line) (hts : ∀ ts', ts ≠ .sym (ch '&') :: ts') (n : ℕ) :
    ∀ (turns s : ℕ) (cmd : Cmd (ℕ × ℕ)) (tree : Cmd (List Byte)),
      At line (List.replicate n (.sym (ch '&')) ++ ts) s → n < turns →
      Cmd.Rel (Counted line) cmd tree →
      wp E (parseamps line turns cmd) (fun cmd' s' =>
        Cmd.Rel (Counted line) cmd' (backs n tree) ∧ At line ts s') s := by
  induction n with
  | zero =>
    intro turns s cmd tree h hlt hrel
    obtain ⟨turns, rfl⟩ := Nat.exists_eq_add_one_of_ne_zero (Nat.ne_of_gt hlt)
    unfold parseamps
    refine wp_seq (peek_one h0 h (by decide) (by decide)) fun b s₁ ⟨h₁, hb⟩ => ?_
    rcases hb with ⟨-, ts', heq⟩ | ⟨rfl, -⟩
    · exact absurd heq (hts ts')
    · rw [if_neg Bool.false_ne_true, wp_pure]
      exact ⟨hrel, h₁⟩
  | succ n ih =>
    intro turns s cmd tree h hlt hrel
    obtain ⟨turns, rfl⟩ := Nat.exists_eq_add_one_of_ne_zero (Nat.ne_of_gt (Nat.zero_lt_of_lt hlt))
    unfold parseamps
    refine wp_seq (peek_one h0 h (by decide) (by decide)) fun b s₁ ⟨h₁, hb⟩ => ?_
    rcases hb with ⟨rfl, -⟩ | ⟨-, hno⟩
    · rw [if_pos rfl]
      refine wp_seq (gettoken_cons h0 h₁) fun r s₂ ⟨_, h₂, _⟩ => ?_
      exact ih turns s₂ _ _ h₂ (by omega) (.back hrel)
    · exact absurd rfl (hno _)

theorem exists_amps (ts : List Tok) : ∃ n ts', ts = List.replicate n (.sym (ch '&')) ++ ts' ∧
    ∀ ts'', ts' ≠ .sym (ch '&') :: ts'' := by
  induction ts with
  | nil => exact ⟨0, [], rfl, nofun⟩
  | cons t ts ih =>
    by_cases ht : t = .sym (ch '&')
    · obtain ⟨n, ts', rfl, hno⟩ := ih
      exact ⟨n + 1, ts', by rw [ht]; rfl, hno⟩
    · exact ⟨0, t :: ts, rfl, fun ts'' heq => ht (List.cons.inj heq).1⟩

theorem At.length_lt (h : At line ts s) : ts.length < line.length + 1 := by
  have := length_lex_le (line.drop s)
  rw [h.2, List.length_drop] at this
  omega

/-! ## What is returned is derived -/

/-- The tokens up to the new position derive the command. -/
def Derived (G : List Tok → Cmd (List Byte) → Prop) (line : List Byte) (ts : List Tok)
    (cmd : Cmd (ℕ × ℕ)) (s' : ℕ) : Prop :=
  ∃ ts₁ ts₂ tree, ts = ts₁ ++ ts₂ ∧ G ts₁ tree ∧ Cmd.Rel (Counted line) cmd tree ∧ At line ts₂ s'

mutual

theorem parseline_sound (h0 : 0 ∉ line) : ∀ (fuel : ℕ) {ts : List Tok} {s : ℕ}, At line ts s →
    4 * ts.length + 4 ≤ fuel →
    wp (· ≠ noFuel) (parseline line fuel) (Derived Line line ts) s
  | 0, ts, s, h, hfuel => absurd hfuel (Nat.not_succ_le_zero _)
  | fuel + 1, ts, s, h, hfuel => by
    unfold parseline
    refine wp_seq (parsepipe_sound h0 fuel h (by omega)) fun cmd s₁ hcmd => ?_
    obtain ⟨ts₁, ts₂, c, rfl, hc, hrel, h₁⟩ := hcmd
    obtain ⟨n, ts₂, rfl, hno⟩ := exists_amps ts₂
    have hn := h₁.length_lt
    rw [List.length_append, List.length_replicate] at hn
    refine wp_seq (parseamps_spec h0 hno n _ s₁ cmd c h₁ (by omega) hrel)
      fun cmd s₂ ⟨hrel₂, h₂⟩ => ?_
    refine wp_seq (peek_one h0 h₂ (by decide) (by decide)) fun b s₃ ⟨h₃, hb⟩ => ?_
    rcases hb with ⟨rfl, ts₃, rfl⟩ | ⟨rfl, -⟩
    · rw [if_pos rfl]
      refine wp_seq (gettoken_cons h0 h₃) fun r s₄ ⟨_, h₄, _⟩ => ?_
      simp only [List.length_append, List.length_cons, List.length_replicate] at hfuel
      refine wp_seq (parseline_sound h0 fuel h₄ (by omega)) fun cmd' s₅ hcmd' => ?_
      obtain ⟨ts₅, ts₆, c', rfl, hc', hrel', h₅⟩ := hcmd'
      rw [wp_pure]
      exact ⟨_, ts₆, _, by simp, .semi n hc hc', .list hrel₂ hrel', h₅⟩
    · rw [if_neg Bool.false_ne_true, wp_pure]
      exact ⟨_, ts₂, _, (List.append_assoc ..).symm, .last n hc, hrel₂, h₃⟩

theorem parsepipe_sound (h0 : 0 ∉ line) : ∀ (fuel : ℕ) {ts : List Tok} {s : ℕ}, At line ts s →
    4 * ts.length + 3 ≤ fuel →
    wp (· ≠ noFuel) (parsepipe line fuel) (Derived Pipeline line ts) s
  | 0, ts, s, h, hfuel => absurd hfuel (Nat.not_succ_le_zero _)
  | fuel + 1, ts, s, h, hfuel => by
    unfold parsepipe
    refine wp_seq (parseexec_sound h0 fuel h (by omega)) fun cmd s₁ hcmd => ?_
    obtain ⟨ts₁, ts₂, c, rfl, hc, hrel, h₁⟩ := hcmd
    refine wp_seq (peek_one h0 h₁ (by decide) (by decide)) fun b s₂ ⟨h₂, hb⟩ => ?_
    rcases hb with ⟨rfl, ts₂, rfl⟩ | ⟨rfl, -⟩
    · rw [if_pos rfl]
      refine wp_seq (gettoken_cons h0 h₂) fun r s₃ ⟨_, h₃, _⟩ => ?_
      simp only [List.length_append, List.length_cons] at hfuel
      refine wp_seq (parsepipe_sound h0 fuel h₃ (by omega)) fun cmd' s₄ hcmd' => ?_
      obtain ⟨ts₃, ts₄, c', rfl, hc', hrel', h₄⟩ := hcmd'
      rw [wp_pure]
      exact ⟨_, ts₄, _, by simp, .bar hc hc', .pipe hrel hrel', h₄⟩
    · rw [if_neg Bool.false_ne_true, wp_pure]
      exact ⟨ts₁, ts₂, c, rfl, .last hc, hrel, h₂⟩

theorem parseexec_sound (h0 : 0 ∉ line) : ∀ (fuel : ℕ) {ts : List Tok} {s : ℕ}, At line ts s →
    4 * ts.length + 2 ≤ fuel →
    wp (· ≠ noFuel) (parseexec line fuel) (Derived Command line ts) s
  | 0, ts, s, h, hfuel => absurd hfuel (Nat.not_succ_le_zero _)
  | fuel + 1, ts, s, h, hfuel => by
    unfold parseexec
    refine wp_seq (peek_one h0 h (by decide) (by decide)) fun b s₁ ⟨h₁, hb⟩ => ?_
    rcases hb with ⟨rfl, -⟩ | ⟨rfl, -⟩
    · rw [if_pos rfl]
      exact parseblock_sound h0 fuel h₁ (by omega)
    · rw [if_neg Bool.false_ne_true]
      refine wp_seq (parseredirs_sound h0 _ ts s₁ _ (.exec []) h₁ h₁.length_lt (.exec .nil))
        fun ret s₂ ⟨rs, ts₂, l, hts, hl, hrel, h₂⟩ => ?_
      refine wp_mono (parseargs_sound h0 _ ts₂ s₂ 0 ret [] l h₂ h₂.length_lt hrel rfl (by decide))
        fun ret' s₃ ⟨ts₃, ts₄, ws', l', hts', hargs, hmax, hrel', h₃⟩ => ?_
      refine ⟨rs ++ ts₃, ts₄, _, ?_, .simple hl hargs hmax, hrel', h₃⟩
      rw [hts, hts', List.append_assoc]

theorem parseblock_sound (h0 : 0 ∉ line) : ∀ (fuel : ℕ) {ts : List Tok} {s : ℕ}, At line ts s →
    4 * ts.length + 1 ≤ fuel →
    wp (· ≠ noFuel) (parseblock line fuel) (Derived Command line ts) s
  | 0, ts, s, h, hfuel => absurd hfuel (Nat.not_succ_le_zero _)
  | fuel + 1, ts, s, h, hfuel => by
    unfold parseblock
    refine wp_seq (peek_one h0 h (by decide) (by decide)) fun b s₁ ⟨h₁, hb⟩ => ?_
    rcases hb with ⟨rfl, ts, rfl⟩ | ⟨rfl, -⟩
    · rw [Bool.not_true, if_neg Bool.false_ne_true]
      refine wp_seq (gettoken_cons h0 h₁) fun r s₂ ⟨_, h₂, _⟩ => ?_
      rw [List.length_cons] at hfuel
      refine wp_seq (parseline_sound h0 fuel h₂ (by omega)) fun cmd s₃ hcmd => ?_
      obtain ⟨ts₁, ts₂, c, rfl, hc, hrel, h₃⟩ := hcmd
      refine wp_seq (peek_one h0 h₃ (by decide) (by decide)) fun b s₄ ⟨h₄, hb⟩ => ?_
      rcases hb with ⟨rfl, ts₂, rfl⟩ | ⟨rfl, -⟩
      · rw [Bool.not_true, if_neg Bool.false_ne_true]
        refine wp_seq (gettoken_cons h0 h₄) fun r s₅ ⟨_, h₅, _⟩ => ?_
        refine wp_mono (parseredirs_sound h0 _ ts₂ s₅ cmd c h₅ h₅.length_lt hrel)
          fun cmd' s' ⟨rs, ts₃, l, hts, hl, hrel', h'⟩ => ?_
        exact ⟨_, ts₃, _, by simp [hts], .block hc hl, hrel', h'⟩
      · rw [Bool.not_false, if_pos rfl, wp_throw]
        decide
    · rw [Bool.not_false, if_pos rfl, wp_throw]
      decide

end

/-! ## What is derived is returned -/

/-- A command without a block does not start with a bracket. -/
theorem simple_ne_block {rs as : List Tok} (hl : Redirs rs l) (hargs : Args as ws l')
    (hts : Follow [ch '|', ch ')', ch '&', ch ';'] ts) (ts' : List Tok) :
    rs ++ (as ++ ts) ≠ .sym (ch '(') :: ts' := by
  intro heq
  cases hl with
  | nil =>
    cases hargs with
    | nil =>
      rw [List.nil_append, List.nil_append] at heq
      exact absurd (hts (.sym (ch '(')) (by rw [heq]; rfl)) (by decide)
    | cons => exact Tok.noConfusion (List.cons.inj heq).1
  | cons hm hl =>
    obtain rfl := (List.cons.inj heq).1
    cases hm

mutual

theorem Line.complete (h0 : 0 ∉ line) : ∀ {ts tree}, Line ts tree → ∀ (fuel s : ℕ) (rest : List Tok),
    At line (ts ++ rest) s → Follow [ch ')'] rest → 4 * (ts ++ rest).length + 4 ≤ fuel →
    wp E (parseline line fuel) (fun cmd s' => Cmd.Rel (Counted line) cmd tree ∧ At line rest s') s
  | _, _, @Line.last ts c n hc, fuel + 1, s, rest, h, hrest, hfuel => by
    unfold parseline
    rw [List.append_assoc] at h hfuel
    have hamp : Follow [ch ')', ch '&', ch ';'] (List.replicate n (.sym (ch '&')) ++ rest) := by
      cases n with
      | zero => exact hrest.mono (by decide)
      | succ n => exact follow_cons (by decide) _
    refine wp_seq (hc.complete h0 fuel s _ h hamp (by omega)) fun cmd s₁ ⟨hrel, h₁⟩ => ?_
    have hn := h₁.length_lt
    rw [List.length_append, List.length_replicate] at hn
    refine wp_seq (parseamps_spec h0 (hrest.ne_cons (by decide)) n _ s₁ cmd c h₁ (by omega) hrel)
      fun cmd s₂ ⟨hrel₂, h₂⟩ => ?_
    refine wp_seq (peek_one h0 h₂ (by decide) (by decide)) fun b s₃ ⟨h₃, hb⟩ => ?_
    rcases hb with ⟨-, ts', heq⟩ | ⟨rfl, -⟩
    · exact absurd heq (hrest.ne_cons (by decide) ts')
    · rw [if_neg Bool.false_ne_true, wp_pure]
      exact ⟨hrel₂, h₃⟩
  | _, _, @Line.semi ts c ts' c' n hc hc', fuel + 1, s, rest, h, hrest, hfuel => by
    unfold parseline
    simp only [List.append_assoc, List.cons_append] at h hfuel
    have hamp : Follow [ch ')', ch '&', ch ';']
        (List.replicate n (.sym (ch '&')) ++ .sym (ch ';') :: (ts' ++ rest)) := by
      cases n with
      | zero => exact follow_cons (by decide) _
      | succ n => exact follow_cons (by decide) _
    refine wp_seq (hc.complete h0 fuel s _ h hamp (by omega)) fun cmd s₁ ⟨hrel, h₁⟩ => ?_
    have hn := h₁.length_lt
    rw [List.length_append, List.length_replicate] at hn
    have hno : ∀ ts'' : List Tok, .sym (ch ';') :: (ts' ++ rest) ≠ .sym (ch '&') :: ts'' :=
      fun ts'' heq => absurd (List.cons.inj heq).1 (by decide)
    refine wp_seq (parseamps_spec h0 hno n _ s₁ cmd c h₁ (by omega) hrel)
      fun cmd s₂ ⟨hrel₂, h₂⟩ => ?_
    refine wp_seq (peek_one h0 h₂ (by decide) (by decide)) fun b s₃ ⟨h₃, hb⟩ => ?_
    rcases hb with ⟨rfl, -⟩ | ⟨-, hne⟩
    · rw [if_pos rfl]
      refine wp_seq (gettoken_cons h0 h₃) fun r s₄ ⟨_, h₄, _⟩ => ?_
      simp only [List.length_append, List.length_cons, List.length_replicate] at hfuel
      have hfuel' : 4 * (ts' ++ rest).length + 4 ≤ fuel := by
        rw [List.length_append]
        omega
      refine wp_seq (hc'.complete h0 fuel s₄ rest h₄ hrest hfuel') fun cmd' s₅ ⟨hrel', h₅⟩ => ?_
      rw [wp_pure]
      exact ⟨.list hrel₂ hrel', h₅⟩
    · exact absurd rfl (hne _)

theorem Pipeline.complete (h0 : 0 ∉ line) : ∀ {ts tree}, Pipeline ts tree →
    ∀ (fuel s : ℕ) (rest : List Tok), At line (ts ++ rest) s →
    Follow [ch ')', ch '&', ch ';'] rest → 4 * (ts ++ rest).length + 3 ≤ fuel →
    wp E (parsepipe line fuel) (fun cmd s' => Cmd.Rel (Counted line) cmd tree ∧ At line rest s') s
  | _, _, @Pipeline.last ts c hc, fuel + 1, s, rest, h, hrest, hfuel => by
    unfold parsepipe
    refine wp_seq (hc.complete h0 fuel s _ h (hrest.mono (by decide)) (by omega))
      fun cmd s₁ ⟨hrel, h₁⟩ => ?_
    refine wp_seq (peek_one h0 h₁ (by decide) (by decide)) fun b s₂ ⟨h₂, hb⟩ => ?_
    rcases hb with ⟨-, ts', heq⟩ | ⟨rfl, -⟩
    · exact absurd heq (hrest.ne_cons (by decide) ts')
    · rw [if_neg Bool.false_ne_true, wp_pure]
      exact ⟨hrel, h₂⟩
  | _, _, @Pipeline.bar ts c ts' c' hc hc', fuel + 1, s, rest, h, hrest, hfuel => by
    unfold parsepipe
    simp only [List.append_assoc, List.cons_append] at h hfuel
    refine wp_seq (hc.complete h0 fuel s _ h (follow_cons (by decide) _) (by omega))
      fun cmd s₁ ⟨hrel, h₁⟩ => ?_
    refine wp_seq (peek_one h0 h₁ (by decide) (by decide)) fun b s₂ ⟨h₂, hb⟩ => ?_
    rcases hb with ⟨rfl, -⟩ | ⟨-, hne⟩
    · rw [if_pos rfl]
      refine wp_seq (gettoken_cons h0 h₂) fun r s₃ ⟨_, h₃, _⟩ => ?_
      simp only [List.length_append, List.length_cons] at hfuel
      have hfuel' : 4 * (ts' ++ rest).length + 3 ≤ fuel := by
        rw [List.length_append]
        omega
      refine wp_seq (hc'.complete h0 fuel s₃ rest h₃ hrest hfuel') fun cmd' s₄ ⟨hrel', h₄⟩ => ?_
      rw [wp_pure]
      exact ⟨.pipe hrel hrel', h₄⟩
    · exact absurd rfl (hne _)

theorem Command.complete (h0 : 0 ∉ line) : ∀ {ts tree}, Command ts tree →
    ∀ (fuel s : ℕ) (rest : List Tok), At line (ts ++ rest) s →
    Follow [ch '|', ch ')', ch '&', ch ';'] rest → 4 * (ts ++ rest).length + 2 ≤ fuel →
    wp E (parseexec line fuel) (fun cmd s' => Cmd.Rel (Counted line) cmd tree ∧ At line rest s') s
  | _, _, @Command.block ts c rs l hc hl, fuel + 2, s, rest, h, hrest, hfuel => by
    unfold parseexec
    simp only [List.append_assoc, List.cons_append] at h hfuel
    refine wp_seq (peek_one h0 h (by decide) (by decide)) fun b s₁ ⟨h₁, hb⟩ => ?_
    rcases hb with ⟨rfl, -⟩ | ⟨-, hne⟩
    swap
    · exact absurd rfl (hne _)
    rw [if_pos rfl]
    unfold parseblock
    refine wp_seq (peek_one h0 h₁ (by decide) (by decide)) fun b s₂ ⟨h₂, hb⟩ => ?_
    rcases hb with ⟨rfl, -⟩ | ⟨-, hne⟩
    swap
    · exact absurd rfl (hne _)
    rw [Bool.not_true, if_neg Bool.false_ne_true]
    refine wp_seq (gettoken_cons h0 h₂) fun r s₃ ⟨_, h₃, _⟩ => ?_
    rw [List.length_cons] at hfuel
    refine wp_seq (hc.complete h0 fuel s₃ _ h₃ (follow_cons (by decide) _) (by omega))
      fun cmd s₄ ⟨hrel, h₄⟩ => ?_
    refine wp_seq (peek_one h0 h₄ (by decide) (by decide)) fun b s₅ ⟨h₅, hb⟩ => ?_
    rcases hb with ⟨rfl, -⟩ | ⟨-, hne⟩
    swap
    · exact absurd rfl (hne _)
    rw [Bool.not_true, if_neg Bool.false_ne_true]
    refine wp_seq (gettoken_cons h0 h₅) fun r s₆ ⟨_, h₆, _⟩ => ?_
    have hlen := h₆.length_lt
    rw [List.length_append] at hlen
    exact parseredirs_complete h0 hl _ s₆ cmd c h₆ (by omega) (hrest.not_starts (by decide)) hrel
  | _, _, @Command.simple rs l as ws l' hl hargs hmax, fuel + 1, s, rest, h, hrest, hfuel => by
    unfold parseexec
    rw [List.append_assoc] at h hfuel
    refine wp_seq (peek_one h0 h (by decide) (by decide)) fun b s₁ ⟨h₁, hb⟩ => ?_
    rcases hb with ⟨-, ts', heq⟩ | ⟨rfl, -⟩
    · exact absurd heq (simple_ne_block hl hargs hrest ts')
    rw [if_neg Bool.false_ne_true]
    have hlen := h₁.length_lt
    rw [List.length_append, List.length_append] at hlen
    -- what follows the redirections is a word or what follows the command
    have hnot : (as ++ rest).head?.any (Tok.starts [ch '<', ch '>']) = false := by
      cases hargs with
      | nil => exact hrest.not_starts (by decide)
      | cons => rfl
    refine wp_seq (parseredirs_complete h0 hl _ s₁ _ (.exec []) h₁ (by omega) hnot (.exec .nil))
      fun ret s₂ ⟨hrel, h₂⟩ => ?_
    exact parseargs_complete h0 hargs _ s₂ 0 ret [] l h₂ (by omega) hrest hrel rfl hmax

end

/-! ## The strings -/

theorem nulterminate_eq (cmd : Cmd (ℕ × ℕ)) (buf : List Byte) :
    nulterminate cmd buf = cmd.strings.foldl (fun buf x => buf.set x.2 0) buf := by
  induction cmd generalizing buf with
  | exec argv => rfl
  | redir cmd file mode fd ih => rw [nulterminate, ih, Cmd.strings, List.foldl_append]; rfl
  | pipe left right ih ih' => rw [nulterminate, ih, ih', Cmd.strings, List.foldl_append]
  | list left right ih ih' => rw [nulterminate, ih, ih', Cmd.strings, List.foldl_append]
  | back cmd ih => rw [nulterminate, ih, Cmd.strings]

theorem getElem?_cut_of_ne {xs : List (ℕ × ℕ)} {i : ℕ} (h : ∀ x ∈ xs, x.2 ≠ i) (buf : List Byte) :
    (xs.foldl (fun buf x => buf.set x.2 0) buf)[i]? = buf[i]? := by
  induction xs generalizing buf with
  | nil => rfl
  | cons x xs ih =>
    rw [List.foldl_cons, ih fun x hx => h x (List.mem_cons_of_mem _ hx),
      List.getElem?_set_ne (h x List.mem_cons_self)]

theorem getElem?_cut {xs : List (ℕ × ℕ)} {i : ℕ} (h : ∃ x ∈ xs, x.2 = i) {buf : List Byte}
    (hi : i < buf.length) : (xs.foldl (fun buf x => buf.set x.2 0) buf)[i]? = some 0 := by
  induction xs generalizing buf with
  | nil => simp at h
  | cons x xs ih =>
    rw [List.foldl_cons]
    by_cases hrest : ∃ x ∈ xs, x.2 = i
    · exact ih hrest (by rwa [List.length_set])
    · have hx : x.2 = i := by simpa [hrest] using h
      rw [getElem?_cut_of_ne fun y hy hyi => hrest ⟨y, hy, hyi⟩, hx, List.getElem?_set_self hi]

/-- Each string of the tree is its word, once the ends of all words are 0. -/
theorem Rel.map_cstr (h0 : 0 ∉ line) (h : Cmd.Rel (Counted line) cmd tree) :
    cmd.map (fun x => cstr (nulterminate cmd (line ++ [0])) x.1) = tree := by
  refine h.map_eq fun x hx w ⟨hcount, hw⟩ => ?_
  have hother : ∀ i, (∀ x ∈ cmd.strings, x.2 ≠ i) →
      (nulterminate cmd (line ++ [0]))[i]? = (line ++ [0])[i]? := fun i hi => by
    rw [nulterminate_eq, getElem?_cut_of_ne hi]
  have hend : (nulterminate cmd (line ++ [0]))[x.2]? = some 0 := by
    rw [nulterminate_eq]
    refine getElem?_cut ⟨x, hx, rfl⟩ ?_
    rw [List.length_append]
    exact Nat.lt_succ_of_le hcount.le
  generalize nulterminate cmd (line ++ [0]) = buf at hother hend ⊢
  -- no word ends inside another one
  have hin : ∀ i, x.1 ≤ i → i < x.2 → buf[i]? = (line)[i]? := by
    intro i hi hi'
    have hlt : i < line.length := hi'.trans_le hcount.le
    rw [hother i, List.getElem?_append_left hlt]
    rintro x' hx' rfl
    obtain ⟨w', hcount', -⟩ := h.of_mem hx'
    have hc := List.getElem?_eq_getElem hlt
    have := (hcount.word _ _ hi hi' hc).symm.trans (hcount'.ends _ hc)
    cases this
  have hslice : slice buf x.1 x.2 = w := by
    rw [← hw]
    refine List.ext_getElem? fun k => ?_
    by_cases hk : x.1 + k < x.2
    · rw [getElem?_slice hk, getElem?_slice hk, hin _ (Nat.le_add_right _ _) hk]
    · rw [slice, slice, List.getElem?_eq_none (by rw [List.length_take]; omega),
        List.getElem?_eq_none (by rw [List.length_take]; omega)]
  rw [← hslice]
  refine takeWhile_eq_slice hcount.lt.le (fun c hc => ?_) hend (by decide)
  rw [hslice, ← hw, slice] at hc
  have : c ≠ 0 := fun h => h0 (h ▸ List.mem_of_mem_drop (List.mem_of_mem_take hc))
  simpa using this

/-! ## The parser -/

theorem parseend_spec {Q : Cmd (ℕ × ℕ) × List Byte → ℕ → Prop} (h0 : 0 ∉ line) (h : At line ts s)
    (hE : ts ≠ [] → E "syntax")
    (hQ : ts = [] → Q (cmd, nulterminate cmd (line ++ [0])) line.length) :
    wp E (parseend line cmd) Q s := by
  unfold parseend peek
  simp only [wp_bind, wp_get, wp_set, wp_pure]
  have hskip := h.skip
  rw [wp_ite, wp_throw, wp_pure]
  constructor
  · intro hne
    refine hE fun hnil => hne ?_
    rcases skip_cases h0 s with ⟨hend, -⟩ | ⟨c, l, hl, -, hsp, -⟩
    · exact le_antisymm hskip.1 (List.drop_eq_nil_iff.1 hend)
    · have hlex := hskip.2
      rw [hl, lex_cons hsp, hnil] at hlex
      split_ifs at hlex
  · intro heq
    rw [not_not] at heq
    rw [heq]
    refine hQ ?_
    rw [← hskip.2, heq, List.drop_length, lex]

end

/-- The parser ends, and returns if and only if the line has a derivation, with its tree, whose
strings are words of the line. -/
theorem parsecmd_iff {line : List Byte} (h0 : 0 ∉ line) {fuel : ℕ}
    (hfuel : 4 * line.length + 4 ≤ fuel) :
    parsecmd line fuel ≠ .error noFuel ∧ ∀ tree,
      (∃ cmd buf, parsecmd line fuel = .ok (cmd, buf) ∧ cmd.map (fun x => cstr buf x.1) = tree) ↔
        Line (lex line) tree := by
  have hat : At line (lex line) 0 := ⟨Nat.zero_le _, by rw [List.drop_zero]⟩
  have hlen := length_lex_le line
  have hsound : wp (· ≠ noFuel) (parseline line fuel >>= parseend line)
      (fun r _ => Line (lex line) (r.1.map fun x => cstr r.2 x.1)) 0 := by
    refine wp_seq (parseline_sound h0 fuel hat (by omega)) fun cmd s₁ hcmd => ?_
    obtain ⟨ts₁, ts₂, tree, hts, htree, hrel, h₁⟩ := hcmd
    refine parseend_spec h0 h₁ (fun _ => by decide) fun hnil => ?_
    rw [Rel.map_cstr h0 hrel, hts, hnil, List.append_nil]
    exact htree
  have hcomplete : ∀ tree, Line (lex line) tree →
      wp Never (parseline line fuel >>= parseend line)
        (fun r _ => r.1.map (fun x => cstr r.2 x.1) = tree) 0 := by
    intro tree htree
    have hat' : At line (lex line ++ []) 0 := by rwa [List.append_nil]
    refine wp_seq (htree.complete h0 fuel 0 [] hat' nofun (by rw [List.append_nil]; omega))
      fun cmd s₁ ⟨hrel, h₁⟩ => ?_
    exact parseend_spec h0 h₁ (fun hne => absurd rfl hne) fun _ => Rel.map_cstr h0 hrel
  have hrun : parsecmd line fuel =
      (fun r => r.1) <$> (parseline line fuel >>= parseend line) 0 := rfl
  cases hc : (parseline line fuel >>= parseend line) 0 with
  | error e =>
    have he : e ≠ noFuel := by
      unfold wp at hsound
      rw [hc] at hsound
      exact hsound
    rw [hrun, hc]
    refine ⟨fun h => he (Except.error.inj h), fun tree => ⟨?_, fun htree => ?_⟩⟩
    · rintro ⟨cmd, buf, h, -⟩
      cases h
    · obtain ⟨r, s, hr, -⟩ := wp_exists (hcomplete tree htree)
      cases hc.symm.trans hr
  | ok r =>
    obtain ⟨⟨cmd, buf⟩, s⟩ := r
    rw [hrun, hc]
    refine ⟨nofun, fun tree => ⟨?_, fun htree => ?_⟩⟩
    · rintro ⟨cmd', buf', h, rfl⟩
      obtain ⟨rfl, rfl⟩ := Prod.mk.inj (Except.ok.inj h)
      have htree := wp_ok hsound hc
      exact htree
    · have hmap := wp_ok (hcomplete tree htree) hc
      exact ⟨cmd, buf, rfl, hmap⟩

/-- The line `a>b&`. -/
theorem parsecmd_iff_small : (0 : Byte) ∉ [ch 'a', ch '>', ch 'b', ch '&'] ∧
    parsecmd [ch 'a', ch '>', ch 'b', ch '&'] 20 ≠ .error noFuel ∧ ∀ tree,
      (∃ cmd buf, parsecmd [ch 'a', ch '>', ch 'b', ch '&'] 20 = .ok (cmd, buf) ∧
        cmd.map (fun x => cstr buf x.1) = tree) ↔
        Line (lex [ch 'a', ch '>', ch 'b', ch '&']) tree :=
  ⟨by decide, parsecmd_iff (by decide) (by decide)⟩

end CowPbs.Sh

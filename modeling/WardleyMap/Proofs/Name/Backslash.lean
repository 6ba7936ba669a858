import Mathlib.Algebra.Ring.Parity
import WardleyMap.Proofs.Name.Encode

/-!
# Backslashes in names

Three rules meet at a backslash in a name. Writing the name does not escape it; the scan for the closing
quote takes it together with the character behind it; and reading the name looks at the character behind
it but takes that one only if it is a quote or an `n`. So the scan and the reading are in step again
behind a run of backslashes unless a quote follows, and there the parity of the run decides: an odd
run takes the backslash that was written for the quote as its partner, and the quote closes the name.
The end of the name counts as a quote, because one is written there.

`Name.decode_encode_iff` says which names survive. Every induction below goes along the name with the
backslash that the scan has not paired yet, `Name.pending`, in front of it.
-/

namespace WardleyMap

namespace Name

/-- Every longest run of backslashes before a quote or before the end of the name has even length. -/
def EvenRuns (name : Text) : Prop :=
  ∀ before run after : Text, name = before ++ (run ++ after) → before.getLast? ≠ some '\\' →
    (∀ c ∈ run, c = '\\') → (∀ c ∈ after.head?, c = '"') → Even run.length

/-- A backslash stands right before an `n` in the name. -/
def HasBreakMark (name : Text) : Prop :=
  ['\\', 'n'] <:+: name

variable {s : Text} {c : Char}

/-! ### Runs of backslashes -/

theorem evenRuns_nil : EvenRuns [] := by
  intro before run after hsplit _ _ _
  obtain ⟨-, rfl, -⟩ : before = [] ∧ run = [] ∧ after = [] := by simpa using hsplit.symm
  exact Even.zero

/-- A character that is no backslash lengthens no run. -/
theorem evenRuns_cons (hc : c ≠ '\\') : EvenRuns (c :: s) ↔ EvenRuns s := by
  constructor
  · intro h before run after hsplit hbefore hrun hafter
    refine h (c :: before) run after (by rw [hsplit]; rfl) ?_ hrun hafter
    cases before with
    | nil => simpa using hc
    | cons d before => exact hbefore
  · intro h before run after hsplit hbefore hrun hafter
    cases before with
    | nil =>
        cases run with
        | nil => exact Even.zero
        | cons d run =>
            obtain rfl : c = d := (List.cons.inj hsplit).1
            exact absurd (hrun c List.mem_cons_self) hc
    | cons d before =>
        refine h before run after (List.cons.inj hsplit).2 ?_ hrun hafter
        cases before with
        | nil => simp
        | cons e before => exact hbefore

/-- A backslash and the character behind it do not count, unless that is a quote. -/
theorem evenRuns_pair (hc : c ≠ '"') : EvenRuns ('\\' :: c :: s) ↔ EvenRuns s := by
  constructor
  · intro h before run after hsplit hbefore hrun hafter
    by_cases hskip : before = [] ∧ c = '\\'
    · obtain ⟨rfl, rfl⟩ := hskip
      have heven := h [] ('\\' :: '\\' :: run) after (by rw [hsplit]; rfl) (by simp)
        (by simpa using hrun) hafter
      simpa [Nat.even_add_one] using heven
    · refine h ('\\' :: c :: before) run after (by rw [hsplit]; rfl) ?_ hrun hafter
      cases before with
      | nil => simpa using hskip
      | cons d before => exact hbefore
  · intro h before run after hsplit hbefore hrun hafter
    match before with
    | [] =>
        match run with
        | [] => exact Even.zero
        | [d] =>
            obtain rfl : after = c :: s := by simpa using (List.cons.inj hsplit).2.symm
            exact absurd (hafter c rfl) hc
        | d :: e :: run =>
            have hrest := (List.cons.inj (List.cons.inj hsplit).2).2
            have heven := h [] run after hrest (by simp)
              (fun x hx => hrun x (by simp [hx])) hafter
            simpa [Nat.even_add_one] using heven
    | [d] =>
        obtain rfl : '\\' = d := (List.cons.inj hsplit).1
        exact absurd rfl hbefore
    | d :: e :: before =>
        have hrest := (List.cons.inj (List.cons.inj hsplit).2).2
        refine h before run after hrest ?_ hrun hafter
        cases before with
        | nil => simp
        | cons f before => exact hbefore

theorem not_evenRuns_lone : ¬EvenRuns ['\\'] := fun h =>
  absurd (h [] ['\\'] [] rfl (by simp) (by simp) (by simp)) (by decide)

theorem not_evenRuns_quote (s : Text) : ¬EvenRuns ('\\' :: '"' :: s) := fun h =>
  absurd (h [] ['\\'] ('"' :: s) rfl (by simp) (by simp) (by simp)) (by decide)

/-! ### The scan for the closing quote -/

/-- The backslash that the scan still has to pair with the next character, if there is one. -/
def pending (odd : Bool) : Text :=
  if odd then ['\\'] else []

theorem evenRuns_pending (hquote : c ≠ '"') (hbackslash : c ≠ '\\') (odd : Bool) :
    EvenRuns (pending odd ++ c :: s) ↔ EvenRuns s := by
  cases odd with
  | false => exact evenRuns_cons hbackslash
  | true => exact evenRuns_pair hquote

theorem map_add_eq_some_iff {t : Option Nat} {m n : Nat} :
    t.map (· + m) = some (n + m) ↔ t = some n := by
  cases t with
  | none => simp
  | some k =>
      simp only [Option.map_some, Option.some.injEq]
      omega

/-- A quote that is written behind the text is the first one that closes it. -/
def ClosesBehind (t : Text) : Prop :=
  closingQuote? (t ++ ['"']) = some t.length

theorem closesBehind_cons (hquote : c ≠ '"') (hbackslash : c ≠ '\\') : ClosesBehind (c :: s) ↔ ClosesBehind s := by
  rw [ClosesBehind, List.cons_append, closingQuote?_cons hquote hbackslash]
  exact map_add_eq_some_iff

theorem closesBehind_pair (c : Char) : ClosesBehind ('\\' :: c :: s) ↔ ClosesBehind s :=
  map_add_eq_some_iff

theorem not_closesBehind_lone : ¬ClosesBehind ['\\'] := by
  simp [ClosesBehind, closingQuote?]

/-- The backslash that was written for a quote can be taken for the partner of one in front of it. -/
theorem not_closesBehind_quote (s : Text) : ¬ClosesBehind ('\\' :: '\\' :: '"' :: s) := by
  simp [ClosesBehind, closingQuote?]

theorem closesBehind_pending (hquote : c ≠ '"') (hbackslash : c ≠ '\\') (odd : Bool) :
    ClosesBehind (pending odd ++ c :: s) ↔ ClosesBehind s := by
  cases odd with
  | false => exact closesBehind_cons hquote hbackslash
  | true => exact closesBehind_pair c

/-- An escaped line break is passed whether or not its backslash is taken for a partner. -/
theorem closesBehind_break (odd : Bool) : ClosesBehind (pending odd ++ '\\' :: 'n' :: s) ↔ ClosesBehind s := by
  cases odd with
  | false => exact closesBehind_pair 'n'
  | true => exact (closesBehind_pair '\\').trans (closesBehind_cons (by decide) (by decide))

/-- The name is closed by the quote that was written for it exactly if its runs are even. -/
theorem closesBehind_escape_iff (odd : Bool) (name : Text) :
    ClosesBehind (pending odd ++ escape name) ↔ EvenRuns (pending odd ++ name) := by
  induction name using escape.induct generalizing odd with
  | case1 =>
      cases odd with
      | false => exact iff_of_true rfl evenRuns_nil
      | true => exact iff_of_false not_closesBehind_lone not_evenRuns_lone
  | case2 s ih =>
      cases odd with
      | false => exact (closesBehind_pair '"').trans ((ih false).trans (evenRuns_cons (by decide)).symm)
      | true => exact iff_of_false (not_closesBehind_quote _) (not_evenRuns_quote s)
  | case3 s ih =>
      rw [escape, evenRuns_pending (by decide) (by decide)]
      exact (closesBehind_break odd).trans (ih false)
  | case4 s ih =>
      rw [escape, evenRuns_pending (by decide) (by decide), evenRuns_cons (by decide)]
      exact (closesBehind_break odd).trans (ih false)
  | case5 s hfeed ih =>
      rw [escape.eq_5 s hfeed, evenRuns_pending (by decide) (by decide)]
      exact (closesBehind_break odd).trans (ih false)
  | case6 c s hquote hfeed hreturnFeed hreturn ih =>
      rw [escape.eq_6 c s hquote hfeed hreturnFeed hreturn]
      by_cases hbackslash : c = '\\'
      · subst hbackslash
        cases odd with
        | false => exact ih true
        | true => exact (closesBehind_pair '\\').trans ((ih false).trans (evenRuns_pair (by decide)).symm)
      · rw [evenRuns_pending hquote hbackslash]
        exact (closesBehind_pending hquote hbackslash odd).trans (ih false)

/-! ### Reading between the quotes -/

theorem hasBreakMark_cons (hc : c ≠ '\\') : HasBreakMark (c :: s) ↔ HasBreakMark s := by
  rw [HasBreakMark, List.infix_cons_iff, List.cons_prefix_cons, or_iff_right]
  · rfl
  · exact fun h => hc h.1.symm

theorem hasBreakMark_backslash : HasBreakMark ('\\' :: s) ↔ s.head? = some 'n' ∨ HasBreakMark s := by
  rw [HasBreakMark, List.infix_cons_iff, List.cons_prefix_cons]
  refine or_congr ⟨?_, ?_⟩ Iff.rfl
  · rintro ⟨-, rest, rfl⟩
    rfl
  · intro h
    obtain ⟨rest, rfl⟩ := List.head?_eq_some_iff.mp h
    exact ⟨rfl, rest, rfl⟩

theorem hasBreakMark_pair : HasBreakMark ('\\' :: '\\' :: s) ↔ s.head? = some 'n' ∨ HasBreakMark s := by
  rw [hasBreakMark_backslash, hasBreakMark_backslash, or_iff_right (by simp)]

theorem hasBreakMark_pending {odd : Bool} (hn : odd = true → c ≠ 'n') (hbackslash : c ≠ '\\') :
    HasBreakMark (pending odd ++ c :: s) ↔ HasBreakMark s := by
  cases odd with
  | false => exact hasBreakMark_cons hbackslash
  | true =>
      refine hasBreakMark_backslash.trans ((or_iff_right ?_).trans (hasBreakMark_cons hbackslash))
      simpa using hn rfl

/-- What stands before the closing quote, or all of the text where none closes. -/
def inside (body : Text) : Text :=
  match closingQuote? body with
  | some n => body.take n
  | none => body

theorem decode_quote (body : Text) : decode ('"' :: body) = unescape (inside body) := by
  rw [decode, inside]
  cases closingQuote? body <;> rfl

theorem inside_cons (hquote : c ≠ '"') (hbackslash : c ≠ '\\') (t : Text) :
    inside (c :: t) = c :: inside t := by
  rw [inside, inside, closingQuote?_cons hquote hbackslash]
  cases closingQuote? t <;> rfl

theorem inside_pair (c : Char) (t : Text) : inside ('\\' :: c :: t) = '\\' :: c :: inside t := by
  rw [inside, inside, closingQuote?]
  cases closingQuote? t <;> rfl

theorem inside_pending (hquote : c ≠ '"') (hbackslash : c ≠ '\\') (odd : Bool) (t : Text) :
    inside (pending odd ++ c :: t) = pending odd ++ c :: inside t := by
  cases odd with
  | false => exact inside_cons hquote hbackslash t
  | true => exact inside_pair c t

theorem inside_pending_break (odd : Bool) (t : Text) :
    inside (pending odd ++ '\\' :: 'n' :: t) = pending odd ++ '\\' :: 'n' :: inside t := by
  cases odd with
  | false => exact inside_pair 'n' t
  | true =>
      change inside ('\\' :: '\\' :: 'n' :: t) = '\\' :: '\\' :: 'n' :: inside t
      rw [inside_pair, inside_cons (by decide) (by decide)]

theorem head?_inside (t : Text) : (inside t).head? ≠ some '"' := by
  cases t with
  | nil => simp [inside, closingQuote?]
  | cons c t =>
      by_cases hquote : c = '"'
      · simp [hquote, inside, closingQuote?]
      · rw [inside]
        cases closingQuote? (c :: t) with
        | none => simpa using hquote
        | some n =>
            cases n with
            | zero => simp
            | succ n => simpa using hquote

theorem prefix_inside (t : Text) : inside t <+: t := by
  rw [inside]
  cases closingQuote? t with
  | none => exact List.prefix_refl t
  | some n => exact List.take_prefix n t

theorem unescape_backslash {t : Text} (hn : t.head? ≠ some 'n') (hquote : t.head? ≠ some '"') :
    unescape ('\\' :: t) = '\\' :: unescape t := by
  rw [unescape]
  · rintro s - rfl
    exact hn rfl
  · rintro s - rfl
    exact hquote rfl

theorem unescape_pending {t : Text} (odd : Bool) (hn : t.head? ≠ some 'n') (hquote : t.head? ≠ some '"') :
    unescape (pending odd ++ t) = pending odd ++ unescape t := by
  cases odd with
  | false => rfl
  | true => exact unescape_backslash hn hquote

theorem escape_cons (hquote : c ≠ '"') (hfeed : c ≠ '\n') (hreturn : c ≠ '\r') (s : Text) :
    escape (c :: s) = c :: escape s :=
  escape.eq_6 c s hquote hfeed (fun _ h => absurd h hreturn) hreturn

theorem head?_escape (hn : s.head? ≠ some 'n') : (escape s ++ ['"']).head? ≠ some 'n' := by
  cases s using escape.fun_cases with
  | case1 | case2 | case3 | case4 => simp [escape]
  | case5 s hfeed => simp [escape.eq_5 s hfeed]
  | case6 c s hquote hfeed hreturnFeed hreturn =>
      rw [escape.eq_6 c s hquote hfeed hreturnFeed hreturn]
      exact hn

theorem head?_inside_escape (hn : s.head? ≠ some 'n') : (inside (escape s ++ ['"'])).head? ≠ some 'n' := by
  intro hhead
  obtain ⟨t, ht⟩ := List.head?_eq_some_iff.mp hhead
  obtain ⟨rest, hrest⟩ := prefix_inside (escape s ++ ['"'])
  refine head?_escape hn ?_
  rw [← hrest, ht]
  rfl

/-- An escaped line break is read as one, whatever is pending in front of it. -/
theorem unescape_inside_break (odd : Bool) (t : Text) :
    unescape (inside (pending odd ++ '\\' :: 'n' :: t)) = pending odd ++ '\n' :: unescape (inside t) := by
  rw [inside_pending_break, unescape_pending odd (by simp) (by simp), unescape]

theorem unescape_inside_pending (hquote : c ≠ '"') (hbackslash : c ≠ '\\') {odd : Bool}
    (hmark : odd = true → c ≠ 'n') (t : Text) :
    unescape (inside (pending odd ++ c :: t)) = pending odd ++ c :: unescape (inside t) := by
  rw [inside_pending hquote hbackslash]
  cases odd with
  | false => exact unescape_cons hbackslash _
  | true =>
      rw [unescape_pending true (by simpa using hmark rfl) (by simpa using hquote), unescape_cons hbackslash]

theorem unescape_inside_quote (t : Text) : unescape (inside ('\\' :: '"' :: t)) = '"' :: unescape (inside t) := by
  rw [inside_pair, unescape]

/-- A backslash of the name and an `n` behind it are read as a line break. -/
theorem unescape_inside_mark (t : Text) : unescape (inside ('\\' :: 'n' :: t)) = '\n' :: unescape (inside t) :=
  unescape_inside_break false t

/-- Of two backslashes, the second is read for itself unless an `n` follows. -/
theorem unescape_inside_backslashes (s : Text) :
    unescape (inside ('\\' :: '\\' :: (escape s ++ ['"']))) = '\\' :: '\\' :: s ↔
      s.head? ≠ some 'n' ∧ unescape (inside (escape s ++ ['"'])) = s := by
  rw [inside_pair, unescape_backslash (by simp) (by simp), List.cons_inj_right]
  by_cases hn : s.head? = some 'n'
  · obtain ⟨t, rfl⟩ := List.head?_eq_some_iff.mp hn
    refine iff_of_false ?_ fun h => h.1 hn
    rw [escape_cons (by decide) (by decide) (by decide), List.cons_append,
      inside_cons (by decide) (by decide), unescape]
    simp
  · rw [unescape_backslash (head?_inside_escape hn) (head?_inside _), List.cons_inj_right, and_iff_right hn]

/-- The name comes back if the scan and the reading agree on where it ends, and if none of its own
backslashes is taken for the first half of an escaped line break. -/
theorem unescape_inside_iff (odd : Bool) {name : Text} (hreturn : '\r' ∉ name) :
    unescape (inside (pending odd ++ (escape name ++ ['"']))) = pending odd ++ name ↔
      EvenRuns (pending odd ++ name) ∧ ¬HasBreakMark (pending odd ++ name) := by
  induction name using escape.induct generalizing odd with
  | case1 =>
      cases odd with
      | false => exact iff_of_true rfl ⟨evenRuns_nil, by simp [HasBreakMark, pending]⟩
      | true => exact iff_of_false (by decide) fun h => not_evenRuns_lone h.1
  | case2 s ih =>
      have hs : '\r' ∉ s := fun h => hreturn (List.mem_cons_of_mem _ h)
      cases odd with
      | false =>
          change unescape (inside ('\\' :: '"' :: (escape s ++ ['"']))) = '"' :: s ↔
            EvenRuns ('"' :: s) ∧ ¬HasBreakMark ('"' :: s)
          rw [unescape_inside_quote, List.cons_inj_right, evenRuns_cons (by decide),
            hasBreakMark_cons (by decide)]
          exact ih false hs
      | true =>
          refine iff_of_false ?_ fun h => not_evenRuns_quote s h.1
          simp [pending, escape, inside, closingQuote?, unescape]
  | case3 s ih =>
      have hs : '\r' ∉ s := fun h => hreturn (List.mem_cons_of_mem _ h)
      rw [escape, List.cons_append, List.cons_append, unescape_inside_break, List.append_cancel_left_eq,
        List.cons_inj_right, evenRuns_pending (by decide) (by decide),
        hasBreakMark_pending (fun _ => by decide) (by decide)]
      exact ih false hs
  | case4 s | case5 s => exact absurd List.mem_cons_self hreturn
  | case6 c s hquote hfeed hreturnFeed hc ih =>
      have hs : '\r' ∉ s := fun h => hreturn (List.mem_cons_of_mem _ h)
      rw [escape.eq_6 c s hquote hfeed hreturnFeed hc, List.cons_append]
      by_cases hbackslash : c = '\\'
      · subst hbackslash
        cases odd with
        | false => exact ih true hs
        | true =>
            change _ ↔ EvenRuns ('\\' :: '\\' :: s) ∧ ¬HasBreakMark ('\\' :: '\\' :: s)
            rw [evenRuns_pair (by decide), hasBreakMark_pair, not_or, and_left_comm]
            exact (unescape_inside_backslashes s).trans (and_congr_right fun _ => ih false hs)
      · by_cases hmark : odd = true → c ≠ 'n'
        · rw [unescape_inside_pending hquote hbackslash hmark, List.append_cancel_left_eq,
            List.cons_inj_right, evenRuns_pending hquote hbackslash, hasBreakMark_pending hmark hbackslash]
          exact ih false hs
        · -- the pending backslash and the `n` are read as a line break
          obtain ⟨rfl, rfl⟩ : odd = true ∧ c = 'n' := by simpa using hmark
          refine iff_of_false ?_ fun h => h.2 (hasBreakMark_backslash.mpr (.inl rfl))
          change unescape (inside ('\\' :: 'n' :: (escape s ++ ['"']))) ≠ '\\' :: 'n' :: s
          rw [unescape_inside_mark]
          simp

/-! ### The round trip -/

theorem not_mem_unescape {t : Text} (h : '\r' ∉ t) : '\r' ∉ unescape t := by
  induction t using unescape.induct with
  | case1 => exact h
  | case2 s ih | case3 s ih =>
      simp only [List.mem_cons, not_or] at h
      simpa [unescape] using ih h.2.2
  | case4 c s hn hquote ih =>
      rw [List.mem_cons, not_or] at h
      rw [unescape.eq_4 c s hn hquote, List.mem_cons, not_or]
      exact ⟨h.1, ih h.2⟩

theorem not_mem_unescape_inside_escape (name : Text) :
    '\r' ∉ unescape (inside (escape name ++ ['"'])) := by
  refine not_mem_unescape fun h => ?_
  have hmem : '\r' ∈ escape name ++ ['"'] := (prefix_inside _).subset h
  rw [List.mem_append, or_iff_left (by simp)] at hmem
  exact (isUnbroken_escape name '\r' hmem).2 rfl

theorem decode_eq_self {name : Text} (h : IsBare name) : decode name = name := by
  rw [decode]
  rintro body rfl
  exact h.not_mem (by decide) List.mem_cons_self

/-- A name survives being written exactly if it is written bare or if it has no carriage return, no
backslash before an `n`, and an even number of backslashes in every run that a quote or the end
follows. Only the runs matter for whether the written form is one quoted name. -/
theorem decode_encode_iff (name : Text) :
    (decode (encode name) = name ↔
      needsQuoting name = false ∨ '\r' ∉ name ∧ ¬HasBreakMark name ∧ EvenRuns name) ∧
    (needsQuoting name = true →
      (quotedLength? (encode name) = some (encode name).length ↔ EvenRuns name)) := by
  refine ⟨?_, fun hquoting => ?_⟩
  · by_cases hquoting : needsQuoting name = true
    · rw [hquoting, or_iff_right (by decide), encode, if_pos hquoting, decode_quote]
      by_cases hreturn : '\r' ∈ name
      · refine iff_of_false (fun h => ?_) fun h => h.1 hreturn
        rw [← h] at hreturn
        exact not_mem_unescape_inside_escape _ hreturn
      · rw [and_iff_right hreturn, and_comm]
        exact unescape_inside_iff false hreturn
    · have hbare : IsBare name := isBare_iff.mp (by simpa using hquoting)
      refine iff_of_true ?_ (.inl (isBare_iff.mpr hbare))
      rw [hbare.encode_eq, decode_eq_self hbare]
  · rw [encode, if_pos hquoting, quotedLength?, List.length_cons, List.length_append]
    exact map_add_eq_some_iff.trans (closesBehind_escape_iff false name)

/-- Two backslashes before the quote leave the one that was written for it in its place. -/
theorem decode_encode_two_backslashes :
    needsQuoting ['\\', '\\', '"'] = true ∧ EvenRuns ['\\', '\\', '"'] ∧
      decode (encode ['\\', '\\', '"']) = ['\\', '\\', '"'] :=
  ⟨by decide, ((decode_encode_iff ['\\', '\\', '"']).2 (by decide)).mp (by decide), by decide⟩

end Name

end WardleyMap

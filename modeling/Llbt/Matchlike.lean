import Mathlib

/-!
# Matching with wildcards (`string_data.cpp`)

`StringData::matchlike` compares a text with a pattern byte by byte.  A `*` pushes the two positions on a
stack of places to go back to; a mismatch goes back to the last of them, one byte further on in the text.
The machine here has the rest of the text for a position in it, so a position that moves past the end
has no value (`outOfBounds`).

* `matchlike_iff` — the machine stops, and its answer is the right one exactly if the text does not need
  two or more stars at the end of the pattern to stand for nothing.
* `trailing_stars_reject` — the text `a` does not match the pattern `a**`.
-/

set_option autoImplicit false

namespace Llbt.Matchlike

abbrev Bytes := List UInt8

def star : UInt8 := 42
def question : UInt8 := 63

/-- `(c & 0xc0) == 0x80`. -/
def isContinuation (c : UInt8) : Bool := c &&& 0xc0 = 0x80

/-- `(c & 0x80) == 0`. -/
def isAscii (c : UInt8) : Bool := c &&& 0x80 = 0

/-! ## The machine -/

/-- The rest of the text and of the pattern, and those to go back to. -/
structure State where
  text : Bytes
  pattern : Bytes
  stack : List (Bytes × Bytes)

inductive Result where
  | answer (b : Bool)
  | next (s : State)
  | outOfBounds

/-- Reattempt the match from the next character. -/
def retry : List (Bytes × Bytes) → Result
  | [] => .answer false
  | (_ :: text, pattern) :: stack => .next ⟨text, pattern, (text, pattern) :: stack⟩
  | ([], _) :: _ => .outOfBounds

def noMatch (text : Bytes) : List (Bytes × Bytes) → Result
  | [] => .answer false
  | frame :: stack => if text = [] then retry stack else retry (frame :: stack)

/-- The text behind the character that `?` stands for. -/
def skip (c : UInt8) (text : Bytes) : Bytes := if isAscii c then text else text.dropWhile isContinuation

/-- One iteration of the loop. -/
def step : State → Result
  | ⟨[], pattern, stack⟩ =>
    if pattern = [] then .answer true
    else if pattern = [star] then .answer true
    else noMatch [] stack
  | ⟨c :: text, [], stack⟩ => noMatch (c :: text) stack
  | ⟨c :: text, p :: pattern, stack⟩ =>
    if p = star then .next ⟨c :: text, pattern, (c :: text, pattern) :: stack⟩
    else if p = question then .next ⟨skip c text, pattern, stack⟩
    else if p = c then .next ⟨text, pattern, stack⟩
    else noMatch (c :: text) stack

/-- The answer after at most `n` iterations. -/
def run : Nat → State → Option Bool
  | 0, _ => none
  | n + 1, s =>
    match step s with
    | .answer b => some b
    | .next s => run n s
    | .outOfBounds => none

/-- `StringData::matchlike`, with at most `n` iterations. -/
def matchlike (n : Nat) (text pattern : Bytes) : Option Bool := run n ⟨text, pattern, []⟩

/-! ## What the machine searches for -/

/-- The text matches the pattern, byte by byte, where at the end of the text one star may be left. -/
def Accepts : Bytes → Bytes → Prop
  | [], text => text = []
  | p :: pattern, [] => p = star ∧ pattern = []
  | p :: pattern, c :: text =>
    if p = star then ∃ t, t <:+ c :: text ∧ Accepts pattern t
    else if p = question then Accepts pattern (skip c text)
    else p = c ∧ Accepts pattern text

/-- What the machine does from within an iteration. -/
def resume (n : Nat) : Result → Option Bool
  | .answer b => some b
  | .next s => run n s
  | .outOfBounds => none

/-- The machine gets from `s` to `r` and does the same from there. -/
def Reaches (s : State) (r : Result) : Prop := ∃ k, ∀ n, run (n + k) s = resume n r

theorem reaches_step (s : State) : Reaches s (step s) :=
  ⟨1, fun n => by
    rw [run]
    cases step s <;> rfl⟩

theorem Reaches.trans {s s' : State} {r : Result} (h : Reaches s (.next s')) (h' : Reaches s' r) :
    Reaches s r := by
  obtain ⟨k, hk⟩ := h
  obtain ⟨k', hk'⟩ := h'
  refine ⟨k' + k, fun n => ?_⟩
  rw [← Nat.add_assoc, hk]
  exact hk' n

/-- How the search for the rest of a pattern ends: with the answer `true`, with a mismatch at a place in
the text, or after going back to a star before it. -/
inductive Outcome where
  | yes
  | failed (text : Bytes)
  | retried

def Outcome.result (stack : List (Bytes × Bytes)) : Outcome → Result
  | yes => .answer true
  | failed text => noMatch text stack
  | retried => retry stack

/-- The search for `pattern` from `text` on.  A mismatch at the end of the text excludes all later places
too, and from the end of the text there is no going on. -/
structure Searches (text pattern : Bytes) (stack : List (Bytes × Bytes)) (o : Outcome) : Prop where
  reaches : Reaches ⟨text, pattern, stack⟩ (o.result stack)
  yes_iff : o = .yes ↔ Accepts pattern text
  exhausted : o = .failed [] → ∀ t, t <:+ text → ¬ Accepts pattern t
  at_end : text = [] → o = .yes ∨ o = .failed []

section

variable {text pattern t : Bytes} {c p : UInt8} {stack : List (Bytes × Bytes)} {o : Outcome}

theorem not_isAscii_of_isContinuation (h : isContinuation c = true) : ¬ isAscii c = true := by
  have hc : c &&& 0xc0 = 0x80 := of_decide_eq_true h
  have hand : c &&& 0x80 = 0x80 := by
    calc c &&& 0x80 = (c &&& 0xc0) &&& 0x80 := (UInt8.and_assoc c 0xc0 0x80).symm
      _ = 0x80 := by rw [hc]; decide
  unfold isAscii
  rw [hand]
  decide

theorem skip_self (c : UInt8) (text : Bytes) : skip c text <:+ text := by
  unfold skip
  split
  · exact List.suffix_refl text
  · exact List.dropWhile_suffix _

theorem skip_suffix {d : UInt8} : ∀ {text : Bytes}, d :: t <:+ text →
    skip d t <:+ text.dropWhile isContinuation
  | [], h => absurd (List.suffix_nil.mp h) (List.cons_ne_nil d t)
  | x :: xs, h => by
    rw [List.dropWhile_cons]
    split
    · rename_i hx
      rcases List.suffix_cons_iff.mp h with heq | htail
      · obtain ⟨rfl, rfl⟩ := List.cons.inj heq
        have hskip : skip d t = t.dropWhile isContinuation := if_neg (not_isAscii_of_isContinuation hx)
        rw [hskip]
      · exact skip_suffix htail
    · exact ((skip_self d t).trans (List.suffix_cons d t)).trans h

theorem skip_mono {d : UInt8} (h : d :: t <:+ c :: text) : skip d t <:+ skip c text := by
  rcases List.suffix_cons_iff.mp h with heq | htail
  · obtain ⟨rfl, rfl⟩ := List.cons.inj heq
    exact List.suffix_refl _
  · by_cases hc : isAscii c = true
    · have hskip : skip c text = text := if_pos hc
      rw [hskip]
      exact ((skip_self d t).trans (List.suffix_cons d t)).trans htail
    · have hskip : skip c text = text.dropWhile isContinuation := if_neg hc
      rw [hskip]
      exact skip_suffix htail

/-! ## The search -/

theorem accepts_nil_iff : Accepts pattern [] ↔ pattern = [] ∨ pattern = [star] := by
  cases pattern with
  | nil => simp [Accepts]
  | cons p pattern => simp [Accepts]

theorem searches_end (pattern : Bytes) (stack : List (Bytes × Bytes)) : ∃ o, Searches [] pattern stack o := by
  have hreach := reaches_step ⟨[], pattern, stack⟩
  by_cases h : Accepts pattern []
  · refine ⟨.yes, ?_, iff_of_true rfl h, fun hne => (nomatch hne), fun _ => .inl rfl⟩
    have hstep : step ⟨[], pattern, stack⟩ = .answer true := by
      unfold step
      rcases accepts_nil_iff.mp h with rfl | rfl
      · rfl
      · rfl
    rw [hstep] at hreach
    exact hreach
  · refine ⟨.failed [], ?_, iff_of_false (fun hne => nomatch hne) h, fun _ t ht => ?_, fun _ => .inr rfl⟩
    · have hstep : step ⟨[], pattern, stack⟩ = noMatch [] stack := by
        unfold step
        rw [accepts_nil_iff, not_or] at h
        dsimp only
        rw [if_neg h.1, if_neg h.2]
      rw [hstep] at hreach
      exact hreach
    · rw [List.suffix_nil.mp ht]
      exact h

theorem searches_mismatch (hstep : step ⟨c :: text, pattern, stack⟩ = noMatch (c :: text) stack)
    (h : ¬ Accepts pattern (c :: text)) : Searches (c :: text) pattern stack (.failed (c :: text)) where
  reaches := by
    have hreach := reaches_step ⟨c :: text, pattern, stack⟩
    rw [hstep] at hreach
    exact hreach
  yes_iff := iff_of_false (fun hne => nomatch hne) h
  exhausted := fun hne => nomatch hne
  at_end := fun hne => nomatch hne

theorem Searches.next {rest : Bytes} (h : Searches rest pattern stack o)
    (hstep : step ⟨c :: text, p :: pattern, stack⟩ = .next ⟨rest, pattern, stack⟩)
    (hyes : Accepts (p :: pattern) (c :: text) ↔ Accepts pattern rest)
    (hlater : ∀ t, t <:+ c :: text → Accepts (p :: pattern) t → ∃ t', t' <:+ rest ∧ Accepts pattern t') :
    Searches (c :: text) (p :: pattern) stack o where
  reaches := by
    have hreach := reaches_step ⟨c :: text, p :: pattern, stack⟩
    rw [hstep] at hreach
    exact hreach.trans h.reaches
  yes_iff := h.yes_iff.trans hyes.symm
  exhausted := fun ho t ht hacc => by
    obtain ⟨t', ht', hacc'⟩ := hlater t ht hacc
    exact h.exhausted ho t' ht' hacc'
  at_end := fun hne => nomatch hne

theorem reaches_star (ih : ∀ text stack, ∃ o, Searches text pattern stack o) :
    ∀ (text : Bytes) (stack : List (Bytes × Bytes)),
      ((∃ t, t <:+ text ∧ Accepts pattern t) ∧
        Reaches ⟨text, pattern, (text, pattern) :: stack⟩ (.answer true)) ∨
      ((∀ t, t <:+ text → ¬ Accepts pattern t) ∧
        Reaches ⟨text, pattern, (text, pattern) :: stack⟩ (retry stack))
  | [], stack => by
    obtain ⟨o, ho⟩ := ih [] (([], pattern) :: stack)
    rcases ho.at_end rfl with rfl | rfl
    · exact .inl ⟨⟨[], List.suffix_refl _, ho.yes_iff.mp rfl⟩, ho.reaches⟩
    · exact .inr ⟨ho.exhausted rfl, ho.reaches⟩
  | c :: text, stack => by
    obtain ⟨o, ho⟩ := ih (c :: text) ((c :: text, pattern) :: stack)
    -- One byte further on, unless the text was exhausted.
    have hfurther : ¬ Accepts pattern (c :: text) → Reaches ⟨c :: text, pattern, (c :: text, pattern) :: stack⟩
        (retry ((c :: text, pattern) :: stack)) →
        ((∃ t, t <:+ c :: text ∧ Accepts pattern t) ∧
          Reaches ⟨c :: text, pattern, (c :: text, pattern) :: stack⟩ (.answer true)) ∨
        ((∀ t, t <:+ c :: text → ¬ Accepts pattern t) ∧
          Reaches ⟨c :: text, pattern, (c :: text, pattern) :: stack⟩ (retry stack)) := by
      intro hnot hreach
      rcases reaches_star ih text stack with ⟨⟨t, ht, hacc⟩, hrun⟩ | ⟨hnone, hrun⟩
      · exact .inl ⟨⟨t, ht.trans (List.suffix_cons c text), hacc⟩, hreach.trans hrun⟩
      · refine .inr ⟨fun t ht => ?_, hreach.trans hrun⟩
        rcases List.suffix_cons_iff.mp ht with rfl | ht
        · exact hnot
        · exact hnone t ht
    cases o with
    | yes => exact .inl ⟨⟨_, List.suffix_refl _, ho.yes_iff.mp rfl⟩, ho.reaches⟩
    | retried => exact hfurther (fun h => nomatch ho.yes_iff.mpr h) ho.reaches
    | failed t =>
      cases t with
      | nil => exact .inr ⟨ho.exhausted rfl, ho.reaches⟩
      | cons d t => exact hfurther (fun h => nomatch ho.yes_iff.mpr h) ho.reaches

theorem searches_star (ih : ∀ text stack, ∃ o, Searches text pattern stack o) (hstar : p = star) (c : UInt8)
    (text : Bytes)
    (stack : List (Bytes × Bytes)) : ∃ o, Searches (c :: text) (p :: pattern) stack o := by
  have hyes : Accepts (p :: pattern) (c :: text) ↔ ∃ t, t <:+ c :: text ∧ Accepts pattern t := by
    rw [Accepts, if_pos hstar]
  have hreach := reaches_step ⟨c :: text, p :: pattern, stack⟩
  rw [step, if_pos hstar] at hreach
  rcases reaches_star ih (c :: text) stack with ⟨hacc, hrun⟩ | ⟨hnone, hrun⟩
  · exact ⟨.yes, hreach.trans hrun, iff_of_true rfl (hyes.mpr hacc), fun h => (nomatch h), fun h => nomatch h⟩
  · refine ⟨.retried, hreach.trans hrun, iff_of_false (fun h => nomatch h) ?_, fun h => (nomatch h),
      fun h => nomatch h⟩
    rw [hyes]
    rintro ⟨t, ht, hacc⟩
    exact hnone t ht hacc

theorem searches_question (ih : ∀ text stack, ∃ o, Searches text pattern stack o) (hstar : p ≠ star)
    (hquestion : p = question)
    (c : UInt8) (text : Bytes) (stack : List (Bytes × Bytes)) : ∃ o, Searches (c :: text) (p :: pattern) stack o := by
  obtain ⟨o, ho⟩ := ih (skip c text) stack
  refine ⟨o, ho.next (by rw [step, if_neg hstar, if_pos hquestion])
    (by rw [Accepts, if_neg hstar, if_pos hquestion]) fun t ht hacc => ?_⟩
  cases t with
  | nil => exact absurd hacc.1 hstar
  | cons d t =>
    rw [Accepts, if_neg hstar, if_pos hquestion] at hacc
    exact ⟨_, skip_mono ht, hacc⟩

theorem searches_literal (ih : ∀ text stack, ∃ o, Searches text pattern stack o) (hstar : p ≠ star)
    (hquestion : p ≠ question)
    (c : UInt8) (text : Bytes) (stack : List (Bytes × Bytes)) : ∃ o, Searches (c :: text) (p :: pattern) stack o := by
  by_cases heq : p = c
  · obtain ⟨o, ho⟩ := ih text stack
    refine ⟨o, ho.next (by rw [step, if_neg hstar, if_neg hquestion, if_pos heq])
      (by rw [Accepts, if_neg hstar, if_neg hquestion, and_iff_right heq]) fun t ht hacc => ?_⟩
    cases t with
    | nil => exact absurd hacc.1 hstar
    | cons d t =>
      rw [Accepts, if_neg hstar, if_neg hquestion] at hacc
      refine ⟨t, ?_, hacc.2⟩
      rcases List.suffix_cons_iff.mp ht with htail | htail
      · rw [(List.cons.inj htail).2]
      · exact (List.suffix_cons d t).trans htail
  · refine ⟨_, searches_mismatch (by rw [step, if_neg hstar, if_neg hquestion, if_neg heq]) ?_⟩
    rw [Accepts, if_neg hstar, if_neg hquestion]
    exact fun h => heq h.1

/-- **The search for a pattern** ends, from every place in every text and with every stack.  The induction
is on the pattern. -/
theorem searches (pattern : Bytes) : ∀ (text : Bytes) (stack : List (Bytes × Bytes)),
    ∃ o, Searches text pattern stack o := by
  induction pattern with
  | nil =>
    intro text stack
    cases text with
    | nil => exact searches_end [] stack
    | cons c text => exact ⟨_, searches_mismatch rfl (List.cons_ne_nil c text)⟩
  | cons p pattern ih =>
    intro text stack
    cases text with
    | nil => exact searches_end _ stack
    | cons c text =>
      by_cases hstar : p = star
      · exact searches_star ih hstar c text stack
      · by_cases hquestion : p = question
        · exact searches_question ih hstar hquestion c text stack
        · exact searches_literal ih hstar hquestion c text stack

end

theorem matchlike_accepts (text pattern : Bytes) : ∃ k, ∀ n, ∃ b, matchlike (n + k) text pattern = some b ∧
    (b = true ↔ Accepts pattern text) := by
  obtain ⟨o, ho⟩ := searches pattern text []
  obtain ⟨k, hk⟩ := ho.reaches
  refine ⟨k, fun n => ?_⟩
  cases o with
  | yes => exact ⟨true, hk n, iff_of_true rfl (ho.yes_iff.mp rfl)⟩
  | failed t => exact ⟨false, hk n, iff_of_false Bool.false_ne_true fun h => nomatch ho.yes_iff.mpr h⟩
  | retried => exact ⟨false, hk n, iff_of_false Bool.false_ne_true fun h => nomatch ho.yes_iff.mpr h⟩

/-! ## Characters -/

/-- The UTF-8 text of the characters. -/
def utf8 (cs : List Char) : Bytes := cs.flatMap String.utf8EncodeChar

/-- The bytes of a character: an ASCII byte, or a first byte with continuation bytes behind it. -/
inductive Encoded (c : Char) : Prop
  | ascii (b : UInt8) (heq : String.utf8EncodeChar c = [b]) (hb : isAscii b = true) (hnat : b.toNat = c.toNat)
  | long (b : UInt8) (bs : Bytes) (heq : String.utf8EncodeChar c = b :: bs) (hb : ¬ isAscii b = true)
      (hfirst : isContinuation b = false) (hbs : ∀ x ∈ bs, isContinuation x = true)

theorem isAscii_ofNat {n : Nat} (h : n < 128) : isAscii (UInt8.ofNat n) = true := by
  revert n
  decide +kernel

theorem isContinuation_ofNat {n : Nat} (h : n < 0x40) : isContinuation (UInt8.ofNat (n + 0x80)) = true := by
  revert n
  decide +kernel

theorem first_ofNat {n : Nat} (h : n < 0x40) :
    ¬ isAscii (UInt8.ofNat (n + 0xc0)) = true ∧ isContinuation (UInt8.ofNat (n + 0xc0)) = false := by
  revert n
  decide +kernel

theorem encoded (c : Char) : Encoded c := by
  have hmod : ∀ x : Nat, isContinuation (UInt8.ofNat (x % 0x40 + 0x80)) = true :=
    fun x => isContinuation_ofNat (Nat.mod_lt x (by decide))
  by_cases h₁ : c.val.toNat ≤ 0x7f
  · refine .ascii (UInt8.ofNat c.val.toNat) (by rw [String.utf8EncodeChar, if_pos h₁]) (isAscii_ofNat (by omega)) ?_
    rw [UInt8.toNat_ofNat', Nat.mod_eq_of_lt (by omega)]
    rfl
  · by_cases h₂ : c.val.toNat ≤ 0x7ff
    · have hb := first_ofNat (n := c.val.toNat / 64 % 0x20) (by omega)
      refine .long _ _ (by rw [String.utf8EncodeChar, if_neg h₁, if_pos h₂]) hb.1 hb.2 ?_
      exact List.forall_mem_singleton.mpr (hmod _)
    · by_cases h₃ : c.val.toNat ≤ 0xffff
      · have hb := first_ofNat (n := c.val.toNat / 4096 % 0x10 + 0x20) (by omega)
        refine .long _ _ (by rw [String.utf8EncodeChar, if_neg h₁, if_neg h₂, if_pos h₃]) hb.1 hb.2 ?_
        exact List.forall_mem_cons.mpr ⟨hmod _, List.forall_mem_singleton.mpr (hmod _)⟩
      · have hb := first_ofNat (n := c.val.toNat / 262144 % 0x08 + 0x30) (by omega)
        refine .long _ _ (by rw [String.utf8EncodeChar, if_neg h₁, if_neg h₂, if_neg h₃]) hb.1 hb.2 ?_
        exact List.forall_mem_cons.mpr ⟨hmod _, List.forall_mem_cons.mpr
          ⟨hmod _, List.forall_mem_singleton.mpr (hmod _)⟩⟩

theorem utf8EncodeChar_append_inj {c d : Char} {s t : Bytes}
    (h : String.utf8EncodeChar c ++ s = String.utf8EncodeChar d ++ t) : c = d ∧ s = t := by
  have hc := ByteArray.utf8DecodeChar?_utf8EncodeChar_append (b := s.toByteArray) (c := c)
  have hd := ByteArray.utf8DecodeChar?_utf8EncodeChar_append (b := t.toByteArray) (c := d)
  rw [← List.toByteArray_append] at hc hd
  rw [h, hd] at hc
  obtain rfl := Option.some.inj hc
  exact ⟨rfl, List.append_cancel_left h⟩

section

variable {c p : Char} {cs ps : List Char} {text pattern : Bytes}

theorem utf8_cons (c : Char) (cs : List Char) : utf8 (c :: cs) = String.utf8EncodeChar c ++ utf8 cs :=
  List.flatMap_cons

theorem utf8_star (ps : List Char) : utf8 ('*' :: ps) = star :: utf8 ps := utf8_cons '*' ps

theorem utf8_question (ps : List Char) : utf8 ('?' :: ps) = question :: utf8 ps := utf8_cons '?' ps

theorem not_isContinuation_of_isAscii {b : UInt8} (h : isAscii b = true) : isContinuation b = false := by
  cases hb : isContinuation b with
  | false => rfl
  | true => exact absurd h (not_isAscii_of_isContinuation hb)

theorem exists_first (c : Char) : ∃ b bs, String.utf8EncodeChar c = b :: bs ∧ isContinuation b = false ∧
    (∀ x ∈ bs, isContinuation x = true) ∧ (isAscii b = true → bs = []) := by
  cases encoded c with
  | ascii b heq hb => exact ⟨b, [], heq, not_isContinuation_of_isAscii hb, fun _ hx => absurd hx List.not_mem_nil,
      fun _ => rfl⟩
  | long b bs heq hb hfirst hbs => exact ⟨b, bs, heq, hfirst, hbs, fun h => absurd h hb⟩

theorem dropWhile_utf8 (cs : List Char) : (utf8 cs).dropWhile isContinuation = utf8 cs := by
  cases cs with
  | nil => rfl
  | cons c cs =>
    obtain ⟨b, bs, heq, hfirst, -⟩ := exists_first c
    rw [utf8_cons, heq, List.cons_append, List.dropWhile_cons_of_neg (by rw [hfirst]; exact Bool.false_ne_true)]

theorem dropWhile_append_utf8 {bs : Bytes} (hbs : ∀ x ∈ bs, isContinuation x = true) (cs : List Char) :
    (bs ++ utf8 cs).dropWhile isContinuation = utf8 cs := by
  rw [List.dropWhile_append_of_pos hbs, dropWhile_utf8]

theorem skip_character {b : UInt8} {bs : Bytes} (heq : String.utf8EncodeChar c = b :: bs) (cs : List Char) :
    skip b (bs ++ utf8 cs) = utf8 cs := by
  obtain ⟨b', bs', heq', -, hbs, hascii⟩ := exists_first c
  obtain ⟨rfl, rfl⟩ := List.cons.inj (heq.symm.trans heq')
  unfold skip
  split
  · rename_i hb
    rw [hascii hb, List.nil_append]
  · exact dropWhile_append_utf8 hbs cs

theorem literal_bytes (hstar : p ≠ '*') (hquestion : p ≠ '?') {b : UInt8} (hb : b ∈ String.utf8EncodeChar p) :
    b ≠ star ∧ b ≠ question := by
  cases encoded p with
  | ascii b' heq hb' hnat =>
    rw [heq, List.mem_singleton] at hb
    subst hb
    constructor
    · rintro rfl
      exact hstar (Char.toNat_inj.mp hnat.symm)
    · rintro rfl
      exact hquestion (Char.toNat_inj.mp hnat.symm)
  | long b' bs heq hb' hfirst hbs =>
    have hnot : ¬ isAscii b = true := by
      rw [heq] at hb
      rcases List.mem_cons.mp hb with rfl | hmem
      · exact hb'
      · exact not_isAscii_of_isContinuation (hbs b hmem)
    constructor
    · rintro rfl
      exact hnot rfl
    · rintro rfl
      exact hnot rfl

/-! ## Bytes and characters -/

theorem accepts_star_iff : Accepts (star :: pattern) text ↔
    if text = [] then pattern = [] else ∃ t, t <:+ text ∧ Accepts pattern t := by
  cases text with
  | nil => simp [Accepts]
  | cons c text => simp [Accepts]

theorem accepts_question_iff : Accepts (question :: pattern) text ↔
    ∃ b t, text = b :: t ∧ Accepts pattern (skip b t) := by
  have hne : ¬ question = star := by decide
  cases text with
  | nil => simp [Accepts, hne]
  | cons c text => simp [Accepts, hne]

theorem accepts_literal_iff : ∀ {bytes : Bytes} {text : Bytes}, (∀ b ∈ bytes, b ≠ star ∧ b ≠ question) →
    (Accepts (bytes ++ pattern) text ↔ ∃ t, text = bytes ++ t ∧ Accepts pattern t)
  | [], text, _ => by simp
  | b :: bytes, text, h => by
    obtain ⟨⟨hstar, hquestion⟩, hbytes⟩ := List.forall_mem_cons.mp h
    cases text with
    | nil => simp [Accepts, hstar]
    | cons c text =>
      rw [List.cons_append, Accepts, if_neg hstar, if_neg hquestion, accepts_literal_iff hbytes]
      constructor
      · rintro ⟨rfl, t, rfl, hacc⟩
        exact ⟨t, rfl, hacc⟩
      · rintro ⟨t, heq, hacc⟩
        obtain ⟨rfl, rfl⟩ := List.cons.inj heq
        exact ⟨rfl, t, rfl, hacc⟩

theorem accepts_of_inside {u : Bytes} {x : UInt8} (hx : isContinuation x = true)
    (hu : ∀ y ∈ u, isContinuation y = true) (hsuffix : x :: (u ++ utf8 cs) <:+ utf8 (c :: cs))
    (h : Accepts (utf8 ps) (x :: (u ++ utf8 cs))) : Accepts (utf8 ps) (utf8 (c :: cs)) := by
  obtain ⟨b, bs, heq, hfirst, -⟩ := exists_first c
  cases ps with
  | nil => exact absurd h (List.cons_ne_nil _ _)
  | cons p ps =>
    by_cases hstar : p = '*'
    · subst hstar
      rw [utf8_star, accepts_star_iff, if_neg (List.cons_ne_nil _ _)] at h
      obtain ⟨t, ht, hacc⟩ := h
      rw [utf8_star, accepts_star_iff, utf8_cons, heq, List.cons_append, if_neg (List.cons_ne_nil _ _)]
      rw [utf8_cons, heq, List.cons_append] at hsuffix
      exact ⟨t, ht.trans hsuffix, hacc⟩
    · by_cases hquestion : p = '?'
      · subst hquestion
        rw [utf8_question, accepts_question_iff] at h ⊢
        obtain ⟨b', t, ht, hacc⟩ := h
        obtain ⟨rfl, rfl⟩ := List.cons.inj ht
        have hskip : skip x (u ++ utf8 cs) = utf8 cs :=
          (if_neg (not_isAscii_of_isContinuation hx)).trans (dropWhile_append_utf8 hu cs)
        rw [hskip] at hacc
        refine ⟨b, bs ++ utf8 cs, by rw [utf8_cons, heq, List.cons_append], ?_⟩
        rw [skip_character heq]
        exact hacc
      · rw [utf8_cons, accepts_literal_iff fun b hb => literal_bytes hstar hquestion hb] at h
        obtain ⟨t, ht, -⟩ := h
        obtain ⟨b', bs', heq', hfirst', -⟩ := exists_first p
        rw [heq', List.cons_append] at ht
        rw [(List.cons.inj ht).1, hfirst'] at hx
        exact absurd hx Bool.false_ne_true

theorem accepts_suffix : ∀ {cs : List Char} {t : Bytes}, t <:+ utf8 cs → Accepts (utf8 ps) t →
    ∃ ts, ts <:+ cs ∧ Accepts (utf8 ps) (utf8 ts)
  | [], t, ht, h => by
    obtain rfl := List.suffix_nil.mp ht
    exact ⟨[], List.suffix_refl _, h⟩
  | c :: cs, t, ht, h => by
    have htail : utf8 cs <:+ utf8 (c :: cs) := by
      rw [utf8_cons]
      exact List.suffix_append _ _
    rcases List.suffix_or_suffix_of_suffix ht htail with hle | ⟨u, rfl⟩
    · obtain ⟨ts, hts, hacc⟩ := accepts_suffix hle h
      exact ⟨ts, hts.trans (List.suffix_cons c cs), hacc⟩
    · obtain ⟨b, bs, heq, -, hbs, -⟩ := exists_first c
      obtain ⟨v, hv⟩ := id ht
      rw [utf8_cons, ← List.append_assoc, heq] at hv
      cases u with
      | nil => exact ⟨cs, List.suffix_cons c cs, h⟩
      | cons x u =>
        refine ⟨c :: cs, List.suffix_refl _, ?_⟩
        cases v with
        | nil =>
          rw [utf8_cons, heq, ← hv]
          exact h
        | cons w v =>
          have hmem : ∀ y ∈ x :: u, isContinuation y = true := fun y hy => hbs y (by
            rw [← (List.cons.inj (List.append_cancel_right hv)).2]
            exact List.mem_append_right v hy)
          obtain ⟨hx, hu⟩ := List.forall_mem_cons.mp hmem
          exact accepts_of_inside hx hu ht h

/-- The same search on characters. -/
def Finds : List Char → List Char → Prop
  | [], text => text = []
  | p :: pattern, [] => p = '*' ∧ pattern = []
  | p :: pattern, c :: text =>
    if p = '*' then ∃ t, t <:+ c :: text ∧ Finds pattern t
    else if p = '?' then Finds pattern text
    else p = c ∧ Finds pattern text

theorem utf8_eq_nil_iff : utf8 cs = [] ↔ cs = [] := by
  cases cs with
  | nil => exact iff_of_true rfl rfl
  | cons c cs =>
    obtain ⟨b, bs, heq, -⟩ := exists_first c
    rw [utf8_cons, heq]
    exact iff_of_false (List.cons_ne_nil _ _) (List.cons_ne_nil _ _)

theorem utf8_suffix (h : ps <:+ cs) : utf8 ps <:+ utf8 cs := by
  obtain ⟨u, rfl⟩ := h
  unfold utf8
  rw [List.flatMap_append]
  exact List.suffix_append _ _

theorem accepts_utf8_star {ps : List Char} (ih : ∀ cs, Accepts (utf8 ps) (utf8 cs) ↔ Finds ps cs) (cs : List Char) :
    Accepts (utf8 ('*' :: ps)) (utf8 cs) ↔ Finds ('*' :: ps) cs := by
  rw [utf8_star, accepts_star_iff]
  cases cs with
  | nil =>
    rw [if_pos (utf8_eq_nil_iff.mpr rfl), utf8_eq_nil_iff, Finds, and_iff_right rfl]
  | cons c cs =>
    rw [if_neg (mt utf8_eq_nil_iff.mp (List.cons_ne_nil c cs)), Finds, if_pos rfl]
    constructor
    · rintro ⟨t, ht, hacc⟩
      obtain ⟨ts, hts, hacc⟩ := accepts_suffix ht hacc
      exact ⟨ts, hts, (ih ts).mp hacc⟩
    · rintro ⟨ts, hts, hfinds⟩
      exact ⟨utf8 ts, utf8_suffix hts, (ih ts).mpr hfinds⟩

theorem accepts_utf8_question {ps : List Char} (ih : ∀ cs, Accepts (utf8 ps) (utf8 cs) ↔ Finds ps cs) (cs : List Char) :
    Accepts (utf8 ('?' :: ps)) (utf8 cs) ↔ Finds ('?' :: ps) cs := by
  rw [utf8_question, accepts_question_iff]
  cases cs with
  | nil => simp [Finds, utf8]
  | cons c cs =>
    obtain ⟨b, bs, heq, -⟩ := exists_first c
    rw [Finds, if_neg (by decide), if_pos rfl, ← ih, utf8_cons, heq]
    constructor
    · rintro ⟨b', t, ht, hacc⟩
      obtain ⟨rfl, rfl⟩ := List.cons.inj ht
      rwa [List.append_eq, skip_character heq] at hacc
    · intro hacc
      refine ⟨b, bs ++ utf8 cs, rfl, ?_⟩
      rw [skip_character heq]
      exact hacc

theorem accepts_utf8_literal {p : Char} {ps : List Char} (ih : ∀ cs, Accepts (utf8 ps) (utf8 cs) ↔ Finds ps cs)
    (hstar : p ≠ '*') (hquestion : p ≠ '?') (cs : List Char) : Accepts (utf8 (p :: ps)) (utf8 cs) ↔
    Finds (p :: ps) cs := by
  rw [utf8_cons, accepts_literal_iff fun b hb => literal_bytes hstar hquestion hb]
  cases cs with
  | nil =>
    obtain ⟨b, bs, heq, -⟩ := exists_first p
    simp [Finds, utf8, heq, hstar]
  | cons c cs =>
    rw [Finds, if_neg hstar, if_neg hquestion, ← ih, utf8_cons]
    constructor
    · rintro ⟨t, ht, hacc⟩
      obtain ⟨rfl, rfl⟩ := utf8EncodeChar_append_inj ht
      exact ⟨rfl, hacc⟩
    · rintro ⟨rfl, hacc⟩
      exact ⟨utf8 cs, rfl, hacc⟩

/-- **The search on the bytes is one on the characters.** -/
theorem accepts_utf8_iff (ps : List Char) : ∀ cs : List Char, Accepts (utf8 ps) (utf8 cs) ↔ Finds ps cs := by
  induction ps with
  | nil => exact fun _ => utf8_eq_nil_iff
  | cons p ps ih =>
    by_cases hstar : p = '*'
    · subst hstar
      exact accepts_utf8_star ih
    · by_cases hquestion : p = '?'
      · subst hquestion
        exact accepts_utf8_question ih
      · exact accepts_utf8_literal ih hstar hquestion

end

/-! ## Matching -/

inductive Matches : List Char → List Char → Prop
  | nil : Matches [] []
  | star (pre : List Char) {text pattern : List Char} (h : Matches text pattern) :
      Matches (pre ++ text) ('*' :: pattern)
  | question (c : Char) {text pattern : List Char} (h : Matches text pattern) :
      Matches (c :: text) ('?' :: pattern)
  | char (c : Char) {text pattern : List Char} (hstar : c ≠ '*') (hquestion : c ≠ '?')
      (h : Matches text pattern) : Matches (c :: text) (c :: pattern)

/-- Two or more stars at the end of a pattern are read as `?*`. -/
def asRead : List Char → List Char
  | [] => []
  | p :: pattern =>
    if p = '*' ∧ pattern ≠ [] ∧ ∀ q ∈ pattern, q = '*' then ['?', '*'] else p :: asRead pattern

section

variable {c p : Char} {text pattern : List Char}

theorem matches_star_iff : Matches text ('*' :: pattern) ↔ ∃ t, t <:+ text ∧ Matches t pattern := by
  constructor
  · intro h
    cases h with
    | star pre h => exact ⟨_, List.suffix_append _ _, h⟩
    | char _ hstar => exact absurd rfl hstar
  · rintro ⟨t, ⟨pre, rfl⟩, h⟩
    exact .star pre h

theorem matches_question_iff : Matches text ('?' :: pattern) ↔ ∃ c t, text = c :: t ∧ Matches t pattern := by
  constructor
  · intro h
    cases h with
    | question c h => exact ⟨c, _, rfl, h⟩
    | char _ _ hquestion => exact absurd rfl hquestion
  · rintro ⟨c, t, rfl, h⟩
    exact .question c h

theorem matches_char_iff (hstar : p ≠ '*') (hquestion : p ≠ '?') :
    Matches text (p :: pattern) ↔ ∃ t, text = p :: t ∧ Matches t pattern := by
  constructor
  · intro h
    cases h with
    | star => exact absurd rfl hstar
    | question => exact absurd rfl hquestion
    | char c _ _ h => exact ⟨_, rfl, h⟩
  · rintro ⟨t, rfl, h⟩
    exact .char p hstar hquestion h

theorem matches_nil_iff : Matches text [] ↔ text = [] := by
  constructor
  · intro h
    cases h
    rfl
  · rintro rfl
    exact .nil

theorem matches_stars : ∀ {pattern : List Char}, pattern ≠ [] → (∀ q ∈ pattern, q = '*') →
    ∀ text, Matches text pattern
  | [], h, _, _ => absurd rfl h
  | p :: pattern, _, h, text => by
    obtain ⟨rfl, htail⟩ := List.forall_mem_cons.mp h
    rw [matches_star_iff]
    refine ⟨[], List.nil_suffix, ?_⟩
    cases pattern with
    | nil => exact .nil
    | cons q pattern => exact matches_stars (List.cons_ne_nil _ _) htail []

theorem matches_asRead : ∀ {pattern text : List Char}, Matches text (asRead pattern) → Matches text pattern
  | [], _, h => h
  | p :: pattern, text, h => by
    rw [asRead] at h
    split at h
    · rename_i hstars
      obtain ⟨rfl, -, htail⟩ := hstars
      exact matches_stars (List.cons_ne_nil _ _) (List.forall_mem_cons.mpr ⟨rfl, htail⟩) text
    · by_cases hstar : p = '*'
      · subst hstar
        rw [matches_star_iff] at h ⊢
        obtain ⟨t, ht, h⟩ := h
        exact ⟨t, ht, matches_asRead h⟩
      · by_cases hquestion : p = '?'
        · subst hquestion
          rw [matches_question_iff] at h ⊢
          obtain ⟨c, t, rfl, h⟩ := h
          exact ⟨c, t, rfl, matches_asRead h⟩
        · rw [matches_char_iff hstar hquestion] at h ⊢
          obtain ⟨t, rfl, h⟩ := h
          exact ⟨t, rfl, matches_asRead h⟩

theorem matches_asRead_stars (hne : pattern ≠ []) (hstars : ∀ q ∈ pattern, q = '*') :
    Matches (c :: text) (asRead pattern) := by
  cases pattern with
  | nil => exact absurd rfl hne
  | cons q pattern =>
    obtain ⟨rfl, htail⟩ := List.forall_mem_cons.mp hstars
    rw [asRead]
    split
    · exact .question c (matches_stars (List.cons_ne_nil _ _) (by simp) text)
    · rename_i hone
      obtain rfl : pattern = [] := by
        by_contra hne
        exact hone ⟨rfl, hne, htail⟩
      exact matches_stars (List.cons_ne_nil _ _) hstars _

theorem finds_nil_iff : Finds pattern [] ↔ pattern = [] ∨ pattern = ['*'] := by
  cases pattern with
  | nil => simp [Finds]
  | cons p pattern => simp [Finds]

/-- **The search is the match with the pattern as it is read.** -/
theorem finds_iff : ∀ {pattern text : List Char}, Finds pattern text ↔ Matches text (asRead pattern)
  | [], text => matches_nil_iff.symm
  | p :: pattern, text => by
    rw [asRead]
    split
    · rename_i hstars
      obtain ⟨rfl, hne, htail⟩ := hstars
      rw [matches_question_iff]
      cases text with
      | nil => simp [Finds, hne]
      | cons c text =>
        rw [Finds, if_pos rfl]
        refine iff_of_true ⟨c :: text, List.suffix_refl _, finds_iff.mpr (matches_asRead_stars hne htail)⟩ ?_
        exact ⟨c, text, rfl, matches_stars (List.cons_ne_nil _ _) (by simp) text⟩
    · rename_i hstars
      by_cases hstar : p = '*'
      · subst hstar
        rw [matches_star_iff]
        cases text with
        | nil =>
          have hone : pattern ≠ ['*'] := fun heq => hstars ⟨rfl, by rw [heq]; simp, by rw [heq]; simp⟩
          simp only [List.suffix_nil, exists_eq_left, ← finds_iff, finds_nil_iff]
          simp [hone]
        | cons c text =>
          rw [Finds, if_pos rfl]
          exact exists_congr fun t => and_congr_right fun _ => finds_iff
      · by_cases hquestion : p = '?'
        · subst hquestion
          rw [matches_question_iff]
          cases text with
          | nil => simp [Finds]
          | cons c text =>
            rw [Finds, if_neg hstar, if_pos rfl, finds_iff]
            simp
        · rw [matches_char_iff hstar hquestion]
          cases text with
          | nil => simp [Finds, hstar]
          | cons c text =>
            rw [Finds, if_neg hstar, if_neg hquestion, finds_iff]
            simp [eq_comm]

end

/-- **`matchlike`.**  It stops; two or more stars at the end of the pattern are read as `?*`; and so the
answer is the right one exactly if the text matches that too whenever it matches the pattern. -/
theorem matchlike_iff (text pattern : List Char) : ∃ k, ∀ n, ∃ b,
    matchlike (n + k) (utf8 text) (utf8 pattern) = some b ∧ (b = true ↔ Matches text (asRead pattern)) ∧
      ((b = true ↔ Matches text pattern) ↔ (Matches text pattern → Matches text (asRead pattern))) := by
  obtain ⟨k, hk⟩ := matchlike_accepts (utf8 text) (utf8 pattern)
  refine ⟨k, fun n => ?_⟩
  obtain ⟨b, hb, hiff⟩ := hk n
  rw [accepts_utf8_iff, finds_iff] at hiff
  refine ⟨b, hb, hiff, ?_⟩
  rw [hiff]
  exact ⟨fun h => h.mpr, fun h => ⟨matches_asRead, h⟩⟩

/-- The text `a` matches the pattern `a**`, and is rejected. -/
theorem trailing_stars_reject : Matches ['a'] ['a', '*', '*'] ∧
    ∀ n, matchlike (n + 2) (utf8 ['a']) (utf8 ['a', '*', '*']) = some false :=
  ⟨.char 'a' (by decide) (by decide) (.star [] (.star [] .nil)), fun _ => rfl⟩

end Llbt.Matchlike

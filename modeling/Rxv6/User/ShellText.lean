import Rxv6.User.ShellRun
import Mathlib.Data.List.TakeWhile

namespace Rxv6.User.Shell

open List

variable {W : Type} (os : Os W)

open Nat

section Turns

theorem length_dropWhile_le (p : Char → Bool) (cs : Text) : (cs.dropWhile p).length ≤ cs.length :=
  (dropWhile_sublist p).length_le

theorem length_tail_dropWhile_le (p : Char → Bool) (cs : Text) : (cs.dropWhile p).tail.length ≤ cs.length :=
  (tail_sublist _).length_le.trans (length_dropWhile_le p cs)

theorem length_parenBody (depth : Nat) (cs : Text) : (parenBody depth cs).2.length ≤ cs.length := by
  fun_induction parenBody with
  | case1 => exact le_rfl
  | case2 => exact le_succ _
  | case3 depth c cs h depth' ih => exact ih.trans (le_succ _)

theorem length_expandVar (cs : Text) (st : Session W) : (expandVar os cs st).2.1.length ≤ cs.length := by
  fun_cases expandVar with
  | case1 => exact le_rfl
  | case2 cs cmd rest h output st' h' =>
    have := length_parenBody 1 cs
    rw [h] at this
    exact this.trans (le_succ _)
  | case3 cs => exact (length_tail_dropWhile_le _ cs).trans (le_succ _)
  | case4 => exact le_succ _
  | case5 => exact length_dropWhile_le _ _
  | case6 => exact le_rfl

theorem length_readDouble (turns : Nat) (word cs : Text) (st : Session W) :
    (readDouble os turns word cs st).2.1.length ≤ cs.length := by
  fun_induction readDouble with
  | case1 => exact le_rfl
  | case2 => exact le_rfl
  | case3 => exact le_succ _
  | case4 turns word st c cs ih => exact ih.trans (by simp only [length_cons]; omega)
  | case5 turns word st cs text rest st' h ih =>
    have := length_expandVar os cs st
    rw [h] at this
    exact ih.trans (this.trans (le_succ _))
  | case6 turns word st c cs _ _ _ ih => exact ih.trans (le_succ _)

theorem length_readWord (turns : Nat) (word cs : Text) (st : Session W) :
    (readWord os turns word cs st).2.1.length ≤ cs.length := by
  fun_induction readWord with
  | case1 | case2 | case9 => exact le_rfl
  | case3 turns word st cs ih | case8 turns word st cs _ _ _ _ _ output st' h ih =>
    exact ih.trans ((length_tail_dropWhile_le _ cs).trans (le_succ _))
  | case4 turns word st cs word' rest st' h ih =>
    have := length_readDouble os turns word cs st
    rw [h] at this
    exact ih.trans (this.trans (le_succ _))
  | case5 => exact zero_le _
  | case6 turns word st c cs ih => exact ih.trans (by simp only [length_cons]; omega)
  | case7 turns word st cs text rest st' h ih =>
    have := length_expandVar os cs st
    rw [h] at this
    exact ih.trans (this.trans (le_succ _))
  | case10 turns word st c cs _ _ _ _ _ _ _ ih => exact ih.trans (le_succ _)

theorem length_readWord_lt {c : Char} (hc : isBreak c = false) (turns : Nat) (word cs : Text) (st : Session W) :
    (readWord os (turns + 1) word (c :: cs) st).2.1.length ≤ cs.length := by
  rw [readWord.eq_def]
  simp only
  split
  · next he => cases he
  · next he =>
    cases he
    exact (length_readWord ..).trans (length_tail_dropWhile_le ..)
  · next he =>
    cases he
    exact (length_readWord ..).trans (length_readDouble ..)
  · exact zero_le _
  · next he =>
    cases he
    exact (length_readWord ..).trans (le_succ _)
  · next he =>
    cases he
    exact (length_readWord ..).trans (length_expandVar ..)
  · next he =>
    cases he
    split
    · exact (length_readWord ..).trans (length_tail_dropWhile_le ..)
    · rw [hc]
      exact length_readWord ..

theorem length_nextToken (c : Char) (cs : Text) (st : Session W) :
    (nextToken os (c :: cs) st).2.1.length ≤ cs.length := by
  unfold nextToken
  split
  case h_16 =>
    have hc : isBreak c = false := by simp_all [isBreak]
    exact length_readWord_lt os hc _ _ _ _
  all_goals
    next he => cases he <;> first | exact le_rfl | exact le_succ _ | exact length_dropWhile_le _ _

theorem tokenizeLoop_turns (t : Nat) : ∀ t' cs st, cs.length < t → cs.length < t' →
    tokenizeLoop os t cs st = tokenizeLoop os t' cs st := by
  induction t with
  | zero => exact fun _ _ _ h ↦ absurd h (not_lt_zero _)
  | succ t ih =>
    intro t' cs st ht ht'
    obtain ⟨t', rfl⟩ : ∃ k, t' = k + 1 := ⟨t' - 1, by omega⟩
    cases cs with
    | nil => rfl
    | cons c cs =>
      have hlen := length_nextToken os c cs st
      rw [length_cons] at ht ht'
      simp only [tokenizeLoop, ih t' (nextToken os (c :: cs) st).2.1 (nextToken os (c :: cs) st).2.2 (by omega)
        (by omega)]

theorem tokenize_cons (c : Char) (cs : Text) (st : Session W) : tokenize os (c :: cs) st =
    ((nextToken os (c :: cs) st).1.toList ++
        (tokenize os (nextToken os (c :: cs) st).2.1 (nextToken os (c :: cs) st).2.2).1,
      (tokenize os (nextToken os (c :: cs) st).2.1 (nextToken os (c :: cs) st).2.2).2) := by
  have hlen := length_nextToken os c cs st
  rw [tokenize, length_cons, tokenizeLoop, tokenize,
    tokenizeLoop_turns os _ _ _ _ (lt_succ_self _) (lt_succ_of_le hlen)]

end Turns

section Complete

def Gap (tl : Text) : Prop := ∀ c ∈ tl.head?, c = ' ' ∨ c = '\n' ∨ c = ';'

def quoteEnd (q : Char) (cs : Text) : Option Text := if q ∈ cs then some (cs.dropWhile (· ≠ q)).tail else none

def parenEnd : Nat → Text → Option Text
  | _, [] => none
  | depth, c :: cs =>
    if c = ')' ∧ depth ≤ 1 then some cs
    else parenEnd (if c = '(' then depth + 1 else if c = ')' then depth - 1 else depth) cs

def expandEnd (cs : Text) : Option Text :=
  match cs with
  | [] => some []
  | '(' :: cs => parenEnd 1 cs
  | '\x7b' :: cs => quoteEnd '\x7d' cs
  | c :: cs =>
    if c = '?' ∨ c = '$' ∨ c = '#' ∨ c.isDigit then some cs
    else if isNameChar c then some ((c :: cs).dropWhile isNameChar)
    else some (c :: cs)

def doubleEnd : Nat → Text → Option Text
  | 0, _ => none
  | turns + 1, cs =>
    match cs with
    | [] => none
    | '\x22' :: cs => some cs
    | '\x5c' :: _ :: cs => doubleEnd turns cs
    | '$' :: cs =>
      match expandEnd cs with
      | none => none
      | some rest => doubleEnd turns rest
    | _ :: cs => doubleEnd turns cs

/-- What follows a word, if the text does not end inside quotes, inside an expansion or after a backslash. -/
def wordEnd : Nat → Text → Option Text
  | 0, _ => none
  | turns + 1, cs =>
    match cs with
    | [] => some []
    | '\x27' :: cs =>
      match quoteEnd '\x27' cs with
      | none => none
      | some rest => wordEnd turns rest
    | '\x22' :: cs =>
      match doubleEnd turns cs with
      | none => none
      | some rest => wordEnd turns rest
    | ['\x5c'] => none
    | '\x5c' :: _ :: cs => wordEnd turns cs
    | '$' :: cs =>
      match expandEnd cs with
      | none => none
      | some rest => wordEnd turns rest
    | c :: cs =>
      if c = backquote then
        match quoteEnd backquote cs with
        | none => none
        | some rest => wordEnd turns rest
      else if isBreak c then some (c :: cs)
      else wordEnd turns cs

def tokenEnd (cs : Text) : Option Text :=
  match cs with
  | [] => none
  | '#' :: cs => if '\n' ∈ cs then some (cs.dropWhile (· ≠ '\n')) else none
  | '|' :: '|' :: cs => some cs
  | '&' :: '&' :: cs => some cs
  | '>' :: '>' :: cs => some cs
  | c :: cs => if isBreak c then some cs else wordEnd (cs.length + 2) (c :: cs)

def completeLoop : Nat → Text → Bool
  | 0, _ => false
  | _ + 1, [] => true
  | turns + 1, c :: cs =>
    match tokenEnd (c :: cs) with
    | none => false
    | some rest => completeLoop turns rest

def Complete (s : Text) : Prop := completeLoop (s.length + 1) s = true

instance (s : Text) : Decidable (Complete s) := inferInstanceAs (Decidable (_ = true))

theorem gap_nil : Gap [] := by
  rintro _ ⟨⟩

theorem gap_semi (tl : Text) : Gap (';' :: tl) := by
  rintro _ ⟨⟩
  exact .inr (.inr rfl)

theorem gap_blank (tl : Text) : Gap (' ' :: tl) := by
  rintro _ ⟨⟩
  exact .inl rfl

variable {cs rest : Text}

variable {q c : Char} {t : Nat} {tl : Text}

theorem takeWhile_append_of_mem (h : q ∈ cs) (tl : Text) :
    (cs ++ tl).takeWhile (· ≠ q) = cs.takeWhile (· ≠ q) := by
  induction cs with
  | nil => cases h
  | cons c cs ih =>
    by_cases hc : c = q
    · simp [hc]
    · simpa [hc] using ih (by simpa [Ne.symm hc] using h)

theorem dropWhile_append_of_mem (h : q ∈ cs) (tl : Text) :
    (cs ++ tl).dropWhile (· ≠ q) = cs.dropWhile (· ≠ q) ++ tl := by
  induction cs with
  | nil => cases h
  | cons c cs ih =>
    by_cases hc : c = q
    · simp [hc]
    · simpa [hc] using ih (by simpa [Ne.symm hc] using h)

theorem dropWhile_ne_nil (h : q ∈ cs) : cs.dropWhile (· ≠ q) ≠ [] := by
  rw [Ne, dropWhile_eq_nil_iff]
  exact fun hall ↦ absurd rfl (of_decide_eq_true (hall q h))

theorem quoteEnd_append (h : quoteEnd q cs = some rest) (tl : Text) :
    (cs ++ tl).takeWhile (· ≠ q) = cs.takeWhile (· ≠ q) ∧ ((cs ++ tl).dropWhile (· ≠ q)).tail = rest ++ tl := by
  unfold quoteEnd at h
  split at h
  · next hq =>
    cases h
    refine ⟨takeWhile_append_of_mem hq tl, ?_⟩
    rw [dropWhile_append_of_mem hq, tail_append_of_ne_nil (dropWhile_ne_nil hq)]
  · cases h

theorem parenBody_append {depth : Nat} (h : parenEnd depth cs = some rest) (tl : Text) :
    parenBody depth (cs ++ tl) = ((parenBody depth cs).1, rest ++ tl) := by
  fun_induction parenEnd with
  | case1 => cases h
  | case2 depth c cs hc =>
    cases h
    simp [parenBody, hc]
  | case3 depth c cs hc ih => simp only [cons_append, parenBody, hc, if_false, ih h]

theorem name_append (cs tl : Text) (h : Gap tl) : (cs ++ tl).takeWhile isNameChar = cs.takeWhile isNameChar ∧
    (cs ++ tl).dropWhile isNameChar = cs.dropWhile isNameChar ++ tl := by
  induction cs with
  | nil =>
    cases tl with
    | nil => exact ⟨rfl, rfl⟩
    | cons c tl => rcases h c rfl with rfl | rfl | rfl <;> exact ⟨rfl, rfl⟩
  | cons c cs ih =>
    cases hc : isNameChar c with
    | true => simpa [hc] using ih
    | false => simp [hc]

theorem expandVar_append (h : expandEnd cs = some rest) (st : Session W) :
    ∃ w st', ∀ tl, Gap tl → expandVar os (cs ++ tl) st = (w, rest ++ tl, st') := by
  revert h
  fun_cases expandEnd with
  | case1 =>
    rintro ⟨⟩
    refine ⟨['$'], st, fun tl htl ↦ ?_⟩
    cases tl with
    | nil => rfl
    | cons c tl => rcases htl c rfl with rfl | rfl | rfl <;> rfl
  | case2 cs =>
    intro h
    refine ⟨(commandSubst os (parenBody 1 cs).1 st).1, (commandSubst os (parenBody 1 cs).1 st).2, fun tl _ ↦ ?_⟩
    simp only [cons_append, expandVar, parenBody_append h]
  | case3 cs =>
    intro h
    refine ⟨st.vars.expand os.pid (cs.takeWhile (· ≠ '\x7d')), st, fun tl _ ↦ ?_⟩
    obtain ⟨htake, hdrop⟩ := quoteEnd_append h tl
    simp only [cons_append, expandVar, htake, hdrop]
  | case4 c cs hparen hbrace hc =>
    rintro ⟨⟩
    refine ⟨st.vars.expand os.pid [c], st, fun tl _ ↦ ?_⟩
    rw [cons_append, expandVar, if_pos hc]
    · exact hparen
    · exact hbrace
  | case5 c cs hparen hbrace hc hname =>
    rintro ⟨⟩
    refine ⟨st.vars.expand os.pid ((c :: cs).takeWhile isNameChar), st, fun tl htl ↦ ?_⟩
    obtain ⟨htake, hdrop⟩ := name_append (c :: cs) tl htl
    rw [← htake, ← hdrop, cons_append, expandVar, if_neg hc, if_pos hname]
    · exact hparen
    · exact hbrace
  | case6 c cs hparen hbrace hc hname =>
    rintro ⟨⟩
    refine ⟨['$'], st, fun tl _ ↦ ?_⟩
    rw [cons_append, expandVar, if_neg hc, if_neg hname]
    · exact hparen
    · exact hbrace

theorem forall_ge_succ {P : Nat → Prop} (h : ∀ k ≥ t, P (k + 1)) : ∀ t' ≥ t + 1, P t' := by
  intro t' ht'
  obtain ⟨k, rfl⟩ : ∃ k, t' = k + 1 := ⟨t' - 1, by omega⟩
  exact h k (by omega)

theorem doubleEnd_nil (t : Nat) : doubleEnd t [] = none := by
  cases t <;> rfl

theorem readDouble_append (h : doubleEnd t cs = some rest) (word : Text) (st : Session W) :
    ∃ w st', ∀ t' ≥ t, ∀ tl, Gap tl → readDouble os t' word (cs ++ tl) st = (w, rest ++ tl, st') := by
  fun_induction doubleEnd generalizing word st with
  | case1 => cases h
  | case2 => cases h
  | case3 t cs =>
    cases h
    refine ⟨word, st, forall_ge_succ fun k hk tl _ ↦ ?_⟩
    rfl
  | case4 t c cs ih =>
    obtain ⟨w, st', hw⟩ := ih h (word ++ [c]) st
    exact ⟨w, st', forall_ge_succ hw⟩
  | case5 => cases h
  | case6 t cs mid hmid ih =>
    obtain ⟨text, st₁, htext⟩ := expandVar_append os hmid st
    obtain ⟨w, st', hw⟩ := ih h (word ++ text) st₁
    refine ⟨w, st', forall_ge_succ fun k hk tl htl ↦ ?_⟩
    simp only [cons_append, readDouble, htext tl htl, hw k hk tl htl]
  | case7 t c cs hquote hslash hdollar ih =>
    obtain ⟨w, st', hw⟩ := ih h (word ++ [c]) st
    refine ⟨w, st', forall_ge_succ fun k hk tl htl ↦ ?_⟩
    rw [cons_append, readDouble, hw k hk tl htl]
    · exact hquote
    · intro c' cs' hc hcs
      cases cs with
      | nil =>
        rw [doubleEnd_nil] at h
        cases h
      | cons d cs => exact hslash d cs hc rfl
    · exact hdollar

theorem readWord_other (hsingle : c ≠ '\x27') (hdouble : c ≠ '\x22') (hslash : c ≠ '\x5c')
    (hdollar : c ≠ '$') (t : Nat) (word cs : Text) (st : Session W) : readWord os (t + 1) word (c :: cs) st =
      if c = backquote then
        readWord os t (word ++ (commandSubst os (cs.takeWhile (· ≠ backquote)) st).1)
          (cs.dropWhile (· ≠ backquote)).tail (commandSubst os (cs.takeWhile (· ≠ backquote)) st).2
      else if isBreak c then (word, c :: cs, st)
      else readWord os t (word ++ [c]) cs st := by
  rw [readWord]
  · exact hsingle
  · exact hdouble
  · exact fun hc _ ↦ hslash hc
  · exact fun _ _ hc _ ↦ hslash hc
  · exact hdollar

theorem ne_slash (hlast : c = '\x5c' → cs = [] → False)
    (hmore : ∀ d ds, c = '\x5c' → cs = d :: ds → False) : c ≠ '\x5c' := by
  intro hc
  cases cs with
  | nil => exact hlast hc rfl
  | cons d ds => exact hmore d ds hc rfl

theorem readWord_append (h : wordEnd t cs = some rest) (word : Text) (st : Session W) :
    ∃ w st', ∀ t' ≥ t, ∀ tl, Gap tl → readWord os t' word (cs ++ tl) st = (w, rest ++ tl, st') := by
  fun_induction wordEnd generalizing word st with
  | case1 => cases h
  | case2 t =>
    cases h
    refine ⟨word, st, forall_ge_succ fun k hk tl htl ↦ ?_⟩
    cases tl with
    | nil => rfl
    | cons c tl => rcases htl c rfl with rfl | rfl | rfl <;> rfl
  | case3 => cases h
  | case4 t cs mid hmid ih =>
    obtain ⟨w, st', hw⟩ := ih h _ st
    refine ⟨w, st', forall_ge_succ fun k hk tl htl ↦ ?_⟩
    obtain ⟨htake, hdrop⟩ := quoteEnd_append hmid tl
    rw [cons_append, readWord, htake, hdrop, hw k hk tl htl]
  | case5 => cases h
  | case6 t cs mid hmid ih =>
    obtain ⟨w₁, st₁, hw₁⟩ := readDouble_append os hmid word st
    obtain ⟨w, st', hw⟩ := ih h w₁ st₁
    refine ⟨w, st', forall_ge_succ fun k hk tl htl ↦ ?_⟩
    simp only [cons_append, readWord, hw₁ k hk tl htl, hw k hk tl htl]
  | case7 => cases h
  | case8 t c cs ih =>
    obtain ⟨w, st', hw⟩ := ih h (word ++ [c]) st
    exact ⟨w, st', forall_ge_succ hw⟩
  | case9 => cases h
  | case10 t cs mid hmid ih =>
    obtain ⟨text, st₁, htext⟩ := expandVar_append os hmid st
    obtain ⟨w, st', hw⟩ := ih h (word ++ text) st₁
    refine ⟨w, st', forall_ge_succ fun k hk tl htl ↦ ?_⟩
    simp only [cons_append, readWord, htext tl htl, hw k hk tl htl]
  | case11 => cases h
  | case12 t cs mid hmid _ _ _ _ _ ih =>
    obtain ⟨w, st', hw⟩ := ih h _
      (commandSubst os _ st).2
    refine ⟨w, st', forall_ge_succ fun k hk tl htl ↦ ?_⟩
    obtain ⟨htake, hdrop⟩ := quoteEnd_append hmid tl
    rw [cons_append, readWord_other os (by decide) (by decide) (by decide) (by decide), if_pos rfl, htake,
      hdrop, hw k hk tl htl]
  | case13 t c cs hsingle hdouble hslash hslash' hdollar hback hbreak =>
    cases h
    refine ⟨word, st, forall_ge_succ fun k hk tl htl ↦ ?_⟩
    rw [cons_append, readWord_other os hsingle hdouble (ne_slash hslash hslash') hdollar, if_neg hback,
      if_pos hbreak]
  | case14 t c cs hsingle hdouble hslash hslash' hdollar hback hbreak ih =>
    obtain ⟨w, st', hw⟩ := ih h (word ++ [c]) st
    refine ⟨w, st', forall_ge_succ fun k hk tl htl ↦ ?_⟩
    rw [cons_append, readWord_other os hsingle hdouble (ne_slash hslash hslash') hdollar, if_neg hback,
      if_neg hbreak, hw k hk tl htl]

theorem nextToken_word (hc : isBreak c = false) (hhash : c ≠ '#') (cs : Text) (st : Session W) :
    nextToken os (c :: cs) st = (some (.ofWord (readWord os (cs.length + 2) [] (c :: cs) st).1),
        (readWord os (cs.length + 2) [] (c :: cs) st).2) := by
  unfold nextToken
  split
  case h_16 => rfl
  all_goals
    next he => cases he <;> first | exact absurd rfl hhash | cases hc

theorem Gap.ne_cons (htl : Gap tl) {d : Char} (hd : d ≠ ' ' ∧ d ≠ '\n' ∧ d ≠ ';')
    (h : ∀ ds, cs = d :: ds → False) (ds : Text) : cs ++ tl = d :: ds → False := by
  intro he
  cases cs with
  | nil => rcases htl d (by rw [nil_append] at he; rw [he]; rfl) with rfl | rfl | rfl <;> simp at hd
  | cons c cs =>
    cases he
    exact h cs rfl

theorem nextToken_append (h : tokenEnd cs = some rest) (st : Session W) :
    ∃ token st', ∀ tl, Gap tl → nextToken os (cs ++ tl) st = (token, rest ++ tl, st') := by
  revert h
  fun_cases tokenEnd with
  | case1 => rintro ⟨⟩
  | case2 cs hnl =>
    rintro ⟨⟩
    refine ⟨none, st, fun tl _ ↦ ?_⟩
    rw [cons_append, nextToken, dropWhile_append_of_mem hnl]
  | case3 => rintro ⟨⟩
  | case4 cs =>
    rintro ⟨⟩
    exact ⟨some .orOr, st, fun _ _ ↦ rfl⟩
  | case5 cs =>
    rintro ⟨⟩
    exact ⟨some .andAnd, st, fun _ _ ↦ rfl⟩
  | case6 cs =>
    rintro ⟨⟩
    exact ⟨some .greaterGreater, st, fun _ _ ↦ rfl⟩
  | case7 c cs hhash hor hand happ hbreak =>
    rintro ⟨⟩
    simp only [isBreak, Bool.or_eq_true, decide_eq_true_eq] at hbreak
    rcases hbreak with ((((((((rfl | rfl) | rfl) | rfl) | rfl) | rfl) | rfl) | rfl) | rfl) | rfl
    · exact ⟨none, st, fun _ _ ↦ rfl⟩
    · exact ⟨none, st, fun _ _ ↦ rfl⟩
    · exact ⟨some .newline, st, fun _ _ ↦ rfl⟩
    · exact ⟨some .semi, st, fun _ _ ↦ rfl⟩
    · refine ⟨some .pipe, st, fun tl htl ↦ ?_⟩
      rw [cons_append, nextToken]
      exact htl.ne_cons (by decide) (hor · rfl)
    · refine ⟨some .amp, st, fun tl htl ↦ ?_⟩
      rw [cons_append, nextToken]
      exact htl.ne_cons (by decide) (hand · rfl)
    · exact ⟨some .lParen, st, fun _ _ ↦ rfl⟩
    · exact ⟨some .rParen, st, fun _ _ ↦ rfl⟩
    · exact ⟨some .less, st, fun _ _ ↦ rfl⟩
    · refine ⟨some .greater, st, fun tl htl ↦ ?_⟩
      rw [cons_append, nextToken]
      exact htl.ne_cons (by decide) (happ · rfl)
  | case8 c cs hhash hor hand happ hbreak =>
    intro h
    obtain ⟨w, st', hw⟩ := readWord_append os h [] st
    refine ⟨some (.ofWord w), st', fun tl htl ↦ ?_⟩
    have hlen : cs.length + 2 ≤ (cs ++ tl).length + 2 := by
      rw [length_append]
      omega
    rw [cons_append, nextToken_word os (Bool.eq_false_iff.mpr hbreak) hhash, ← cons_append, hw _ hlen tl htl]

theorem completeLoop_append (h : completeLoop t cs = true) (st : Session W) :
    ∃ ts st', ∀ tl, Gap tl → tokenize os (cs ++ tl) st = (ts ++ (tokenize os tl st').1, (tokenize os tl st').2) := by
  fun_induction completeLoop generalizing st with
  | case1 => cases h
  | case2 => exact ⟨[], st, fun _ _ ↦ rfl⟩
  | case3 => cases h
  | case4 t c cs mid hmid ih =>
    obtain ⟨token, st₁, htoken⟩ := nextToken_append os hmid st
    obtain ⟨ts, st', hts⟩ := ih h st₁
    refine ⟨token.toList ++ ts, st', fun tl htl ↦ ?_⟩
    have hnext := htoken tl htl
    rw [cons_append] at hnext ⊢
    rw [tokenize_cons, hnext, hts tl htl, append_assoc]

theorem Complete.tokenize_append {s : Text} (h : Complete s) (st : Session W) (htl : Gap tl) :
    tokenize os (s ++ tl) st = ((tokenize os s st).1 ++ (tokenize os tl (tokenize os s st).2).1,
      (tokenize os tl (tokenize os s st).2).2) := by
  obtain ⟨ts, st', hts⟩ := completeLoop_append os h st
  have hs : tokenize os s st = (ts, st') := by simpa [tokenize, tokenizeLoop] using hts [] gap_nil
  rw [hts tl htl, hs]

theorem tokenize_semi (s : Text) (st : Session W) :
    tokenize os (';' :: s) st = (.semi :: (tokenize os s st).1, (tokenize os s st).2) :=
  tokenize_cons os ';' s st

theorem tokenize_blank (s : Text) (st : Session W) : tokenize os (' ' :: s) st = tokenize os s st :=
  tokenize_cons os ' ' s st

end Complete

end Rxv6.User.Shell

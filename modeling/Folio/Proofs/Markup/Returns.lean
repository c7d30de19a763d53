import Folio.Proofs.Markup.Lexing
import Mathlib.Data.List.Basic

namespace Folio.Markup

def isUnsplit (c : Char) : Bool :=
  isProse c && c ≠ '\r'

/-- What a text is cut into where it stands. Carriage returns are skipped, and prose ends at
them. -/
def cuts : List Char → List Token
  | [] => []
  | c :: cs =>
    if c = '\r' then cuts cs
    else match Kind.ofChar? c with
    | some k => ⟨k, c.toString⟩ :: cuts cs
    | none => ⟨.text, String.ofList (c :: cs.takeWhile isUnsplit)⟩ :: cuts (cs.dropWhile isUnsplit)
termination_by cs => cs.length
decreasing_by
  · simp
  · simp
  · exact Nat.lt_succ_of_le (List.dropWhile_sublist isUnsplit).length_le

/-- Puts a token behind others, the last one first. Prose behind prose goes on with it. -/
def push : List Token → Token → List Token
  | ⟨.text, v⟩ :: ts, ⟨.text, w⟩ => ⟨.text, v ++ w⟩ :: ts
  | ts, t => t :: ts

def scan (s : String) : List Token :=
  ((cuts s.toList).foldl push []).reverse

theorem push_mark (ts : List Token) {t : Token} (ht : t.kind ≠ .text) : push ts t = t :: ts := by
  unfold push
  split
  · exact absurd rfl ht
  · rfl

theorem push_concat {ts : List Token} {u : Token} (h : ts ≠ [] ∨ u.kind ≠ .text) (t : Token) :
    push (ts ++ [u]) t = push ts t ++ [u] := by
  obtain ⟨k, v⟩ := u
  obtain ⟨k', v'⟩ := t
  rcases ts with _ | ⟨⟨k'', v''⟩, ts⟩
  · cases k with
    | text => simp at h
    | _ => rfl
  · cases k'' with
    | text => cases k' <;> rfl
    | _ => rfl

/-- Prose behind a text goes on with the last run of prose. -/
theorem push_lexChars_prose {w : List Char} (hw : ∀ c ∈ w, isProse c) (hne : w ≠ [])
    (cs : List Char) :
    push (lexChars cs).reverse ⟨.text, String.ofList w⟩ = (lexChars (cs ++ w)).reverse := by
  have hrun : ∀ w' : List Char, (∀ c ∈ w', isProse c) → w' ≠ [] →
      lexChars w' = [⟨.text, String.ofList w'⟩] := by
    intro w' hw' hne'
    have h : lexChars (w' ++ []) = _ := lexChars_prose hw' hne' (by simp)
    rwa [List.append_nil, lexChars] at h
  induction cs using runs_induction with
  | nil =>
    rw [List.nil_append, hrun w hw hne, lexChars]
    rfl
  | mark k c cs hk ih =>
    have hk' : k ≠ .text := by
      rintro rfl
      exact Kind.ofChar?_ne_text c hk
    rw [List.cons_append, lexChars_mark hk, lexChars_mark hk, List.reverse_cons,
      List.reverse_cons, push_concat (.inr hk'), ih]
  | prose w' rest hw' hne' hr ih =>
    by_cases hrest : rest = []
    · subst hrest
      have hboth : ∀ c ∈ w' ++ w, isProse c := by
        intro c hc
        rcases List.mem_append.1 hc with hc | hc
        · exact hw' c hc
        · exact hw c hc
      rw [List.append_nil, hrun w' hw' hne', hrun (w' ++ w) hboth (by simp [hne])]
      simp [push, String.ofList_append]
    · have hr' : ∀ c ∈ (rest ++ w).head?, isProse c = false := by
        rwa [List.head?_append_of_ne_nil rest hrest]
      have hlex : (lexChars rest).reverse ≠ [] := by
        rw [Ne, List.reverse_eq_nil_iff]
        exact fun h ↦ hrest (eq_nil_of_lexChars h)
      rw [List.append_assoc, lexChars_prose hw' hne' hr, lexChars_prose hw' hne' hr',
        List.reverse_cons, List.reverse_cons, push_concat (.inl hlex), ih]

/-- What is put together after some part of a text are the tokens of that part without its
returns. -/
theorem foldl_push_cuts (cs ds : List Char) :
    (cuts cs).foldl push (lexChars ds).reverse =
      (lexChars (ds ++ cs.filter (· ≠ '\r'))).reverse := by
  fun_induction cuts cs generalizing ds with
  | case1 => simp
  | case2 cs ih => simpa using ih ds
  | case3 c cs hc k hk ih =>
    have hpush : push (lexChars ds).reverse ⟨k, c.toString⟩ = (lexChars (ds ++ [c])).reverse := by
      have hk' : k ≠ .text := by
        rintro rfl
        exact Kind.ofChar?_ne_text c hk
      rw [push_mark _ hk', lexChars_append_mark hk, lexChars_mark hk, lexChars]
      simp
    rw [List.foldl_cons, hpush, ih]
    simp [hc]
  | case4 c cs hc hk ih =>
    have hw : ∀ d ∈ c :: cs.takeWhile isUnsplit, isProse d ∧ d ≠ '\r' := by
      intro d hd
      rcases List.mem_cons.1 hd with rfl | hd
      · exact ⟨by simp [isProse, hk], hc⟩
      · have h := List.mem_takeWhile_imp hd
        simpa [isUnsplit] using h
    have hkeep : (c :: cs.takeWhile isUnsplit).filter (· ≠ '\r') = c :: cs.takeWhile isUnsplit :=
      List.filter_eq_self.2 fun d hd ↦ by simpa using (hw d hd).2
    have hfilter : (c :: cs).filter (· ≠ '\r') =
        (c :: cs.takeWhile isUnsplit) ++ (cs.dropWhile isUnsplit).filter (· ≠ '\r') := by
      rw [← hkeep, ← List.filter_append, List.cons_append, List.takeWhile_append_dropWhile]
    rw [List.foldl_cons, push_lexChars_prose (fun d hd ↦ (hw d hd).1) (by simp), ih, hfilter,
      List.append_assoc]

theorem scan_eq (s : String) : scan s = tokenize s := by
  have h := foldl_push_cuts s.toList []
  rw [lexChars, List.reverse_nil, List.nil_append] at h
  rw [scan, h, List.reverse_reverse]
  rfl

end Folio.Markup

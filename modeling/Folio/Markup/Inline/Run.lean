import Folio.Markup.Inline.Reader

namespace Folio.Markup

def readRun (ctx : Context) (run : Run) : List Token → Except Failure (Run × List Token)
  | [] => .ok (run, [])
  | t :: ts =>
    if ctx.endsAt t.kind then .ok (run, t :: ts)
    else
      match _h : readInline ctx t ts with
      | .error f => .error f
      | .ok (n, rest) => readRun ctx (Run.push run n) rest
termination_by ts => ts.length
decreasing_by exact Nat.lt_succ_of_le (readInline_suffix ‹_›).length_le

theorem readRun_cons (ctx : Context) (run : Run) (t : Token) (ts : List Token) :
    readRun ctx run (t :: ts) =
      if ctx.endsAt t.kind then .ok (run, t :: ts)
      else readInline ctx t ts >>= fun p ↦ readRun ctx (Run.push run p.1) p.2 := by
  rw [readRun]
  split
  · rfl
  · split <;> next h => rw [h]; rfl

theorem readRun_suffix {ctx : Context} {run run' : Run} {ts rest : List Token}
    (h : readRun ctx run ts = .ok (run', rest)) : rest <:+ ts := by
  fun_induction readRun ctx run ts with
  | case1 =>
    simp only [Except.ok.injEq, Prod.mk.injEq] at h
    exact h.2 ▸ List.suffix_refl _
  | case2 =>
    simp only [Except.ok.injEq, Prod.mk.injEq] at h
    exact h.2 ▸ List.suffix_refl _
  | case3 => simp at h
  | case4 run t ts _ n r hn ih =>
    exact (ih h).trans ((readInline_suffix hn).trans (List.suffix_cons ..))

end Folio.Markup

import Topograph.Lib.Loops

/-! # Runs of a state machine

A machine is a partial step function: `step s e = none` means that the event `e` cannot happen in
the state `s`. A run is a list of events, and an invariant may speak of the events so far. -/

namespace Topograph.Runs

universe u v

variable {σ : Type u} {ε : Type v}

/-- The state after a list of events. -/
def run (step : σ → ε → Option σ) (s : σ) (es : List ε) : Option σ := es.foldlM step s

theorem run_append (step : σ → ε → Option σ) (s : σ) (es es' : List ε) :
    run step s (es ++ es') = (run step s es).bind fun s' => run step s' es' :=
  List.foldlM_append

theorem run_append_singleton (step : σ → ε → Option σ) (s : σ) (es : List ε) (e : ε) :
    run step s (es ++ [e]) = (run step s es).bind fun s' => step s' e := by
  rw [run_append]
  simp [run]

/-- **What a step preserves holds after every run.** -/
theorem invariant_of_step {step : σ → ε → Option σ} {start : σ} {I : List ε → σ → Prop}
    (hstart : I [] start) (hstep : ∀ es e s s', I es s → step s e = some s' → I (es ++ [e]) s')
    {es : List ε} {s : σ} (h : run step start es = some s) :
    I es s :=
  Loops.foldlM_some hstart (fun es e _ s s' _ => hstep es e s s') h

end Topograph.Runs

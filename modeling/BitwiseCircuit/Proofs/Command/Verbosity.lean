import BitwiseCircuit.Proofs.Command.Arguments
import BitwiseCircuit.Proofs.Command.Course

/-!
# Reports of the stages

The option to report the stages adds lines to the standard error and changes nothing else.  The
lines stand where their stages are completed, before and after the warning that there may be, and
what they say is true.

Main results:

- Theorem `Invocation.outcome_verbose`: with the option and without it, a command line takes the
  same course, and only what it tells on the way differs.
-/

namespace BitwiseCircuit.Command

namespace Course

variable {course : Course}

private theorem told_false (course : Course) : course.told false = course.warning := by
  simp [told, summaries]

private theorem told_true (course : Course) :
    course.told true = String.join (course.stages.map (· ++ "\n")) ++ course.warning ++
      String.join (course.resolved.map (· ++ "\n")) := by
  simp [told, summaries]

end Course

namespace Invocation

variable {words words' : List String} {before after : List Argument} {request : Request}

/-- With one more option, anywhere on the command line, the summaries of the completed stages are
written before and after the warning, and nothing else changes. -/
theorem outcome_verbose (hrun : ofWords words = .run request)
    (hquiet : .flag .verbose ∉ Argument.ofWords words)
    (hwords : Argument.ofWords words = before ++ after)
    (hwords' : Argument.ofWords words' = before ++ .flag .verbose :: after)
    (source : Except ReadFailure String) :
    (∃ course, request.Takes source course) ∧ ∀ course, request.Takes source course →
      (ofWords words).outcome source =
        ⟨course.status, course.shown, course.warning ++ course.complaint⟩ ∧
      (ofWords words').outcome source =
        ⟨course.status, course.shown,
          String.join (course.stages.map (· ++ "\n")) ++ course.warning ++
            String.join (course.resolved.map (· ++ "\n")) ++ course.complaint⟩ := by
  rcases request.exists_takes source with ⟨course, htakes, houtcome⟩
  have hfalse : request.verbose = false := by
    rw [(ofWords_eq_run_iff.mp hrun).verbose] at hquiet
    simpa using hquiet
  have hrun' := ofWords_insert_verbose hrun hquiet hwords hwords'
  refine ⟨⟨course, htakes⟩, fun other hother => ?_⟩
  obtain rfl : course = other := htakes.unique hother
  constructor
  · rw [hrun, ← course.told_false, ← houtcome, ← hfalse]
    rfl
  · rw [hrun', ← course.told_true, ← houtcome]
    rfl

/-- The wire `d` depends on all wires but `e`. -/
def joined : String :=
  "x AND y -> d\nx LSHIFT 2 -> y\n7 -> x\n9 -> e\n"

/-- Three wires are shown, two of them the same; three are computed, and one of four is not. -/
theorem joined_outcome_verbose :
    ofWords ["--order", "source", "-", "d", "y", "d"] =
        .run ⟨"-", ["d", "y", "d"], .byMention, .values, false⟩ ∧
      .flag .verbose ∉ Argument.ofWords ["--order", "source", "-", "d", "y", "d"] ∧
      Argument.ofWords ["--order", "source", "-", "d", "y", "d"] =
        [.order "source"] ++ [.name "-", .name "d", .name "y", .name "d"] ∧
      Argument.ofWords ["--order", "source", "-v", "-", "d", "y", "d"] =
        [.order "source"] ++ .flag .verbose :: [.name "-", .name "d", .name "y", .name "d"] ∧
      ((ofWords ["--order", "source", "-v", "-", "d", "y", "d"]).outcome (.ok joined)).stderr =
        "lexed 16 tokens\nparsed 4 statements\nbuilt graph with 4 wires\n" ++
          "warning: --order is ignored when wires are listed\n" ++
          "resolved 3 wires with 3 gate evaluations\n" ∧
      ∃ course,
        Request.Takes ⟨"-", ["d", "y", "d"], .byMention, .values, false⟩ (.ok joined) course ∧
        (ofWords ["--order", "source", "-", "d", "y", "d"]).outcome (.ok joined) =
          ⟨course.status, course.shown, course.warning ++ course.complaint⟩ ∧
        (ofWords ["--order", "source", "-v", "-", "d", "y", "d"]).outcome (.ok joined) =
          ⟨course.status, course.shown,
            String.join (course.stages.map (· ++ "\n")) ++ course.warning ++
              String.join (course.resolved.map (· ++ "\n")) ++ course.complaint⟩ := by
  have hrun : ofWords ["--order", "source", "-", "d", "y", "d"] =
      .run ⟨"-", ["d", "y", "d"], .byMention, .values, false⟩ := by decide +kernel
  have hquiet : .flag .verbose ∉ Argument.ofWords ["--order", "source", "-", "d", "y", "d"] := by
    decide +kernel
  have hwords : Argument.ofWords ["--order", "source", "-", "d", "y", "d"] =
      [.order "source"] ++ [.name "-", .name "d", .name "y", .name "d"] := by decide +kernel
  have hwords' : Argument.ofWords ["--order", "source", "-v", "-", "d", "y", "d"] =
      [.order "source"] ++ .flag .verbose :: [.name "-", .name "d", .name "y", .name "d"] := by
    decide +kernel
  rcases outcome_verbose hrun hquiet hwords hwords' (.ok joined) with ⟨⟨course, htakes⟩, hall⟩
  exact ⟨hrun, hquiet, hwords, hwords', by decide +kernel, course, htakes, hall course htakes⟩

end Invocation

end BitwiseCircuit.Command

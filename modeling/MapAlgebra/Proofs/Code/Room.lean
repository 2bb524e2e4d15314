import MapAlgebra.Proofs.Code.Landing
import MapAlgebra.Proofs.Code.Locality

/-! How much of its stack the run of a chunk uses: no more than the chunk says, as long as no call has
more arguments than its operand can tell. So the run ends the same with any two stacks that are large
enough, whatever their sizes.
-/

namespace MapAlgebra

/-- A call has no more arguments than its operand can tell. -/
def Expr.FewArguments : Expr → Prop
  | .call _ _ args _ => args.length ≤ 255
  | _ => True

instance : DecidablePred Expr.FewArguments
  | .call _ _ args _ => inferInstanceAs (Decidable (args.length ≤ 255))
  | .literal .. | .read .. | .binary .. | .unary .. | .assign .. | .update .. | .builtin .. =>
    isTrue trivial

theorem Expr.FewArguments.sends {n : Expr} (few : n.FewArguments) (pools)
    : ∀ r ∈ n.ownReferences, Lower.Sends True (fun _ => True) pools r := by
  intro r refers
  refine ⟨fun _ _ => Or.inr trivial, ?_⟩
  rintro - f argc rfl
  obtain ⟨span, name, args, rfl, rfl⟩ := Expr.eq_call_of_ownReferences refers
  exact few

namespace Machine

open Lower (maxDepth)

variable {chunk : Chunk} {whole : List Lower.Item} {f : Frame} {ok : Instr → Prop} {i : Instr}
  {depth : Nat}

/-- From a noted height an instruction stays below the greatest. -/
theorem Stands.reaches (stands : Stands True whole f i depth) (laid : Lower.Laid True ok whole chunk)
    : Reaches (· < maxDepth whole) f.sp i := by
  have steady := laid.all.steady stands.noted
  have enough := steady.enough
  have here := (Lower.Enters.of_noted stands.noted).le_maxDepth
  have there := steady.heightAfter_le_maxDepth stands.noted
  intro k below
  rw [stands.height trivial] at below
  rw [Instr.heightAfter] at there
  omega

/-- Runs of a chunk end the same from states that look alike, with any two stacks. -/
theorem relates_chunk {name : String} {table body}
    (lowered : Lower.chunk name table body = .ok chunk)
    (few : ∀ n ∈ stmtsNodes body, n.FewArguments) (stateless : ∀ f ∈ chunk.functions, f.Stateless)
    (fuel : Nat) {env env'} (alike : env.Alike env')
    : EvalM.Agreed (fun _ => Env.Alike) ((run chunk fuel).run env) ((run chunk fuel).run env') := by
  obtain ⟨items, found, code, -, -, maxStack⟩ := Lower.chunk_eq_ok lowered
  obtain ⟨all, start⟩ := Lower.steady_code (Lower.forall_stmts_references body fun n member =>
    (few n member).sends (Lower.bodyPools body)) found
  have laid := Lower.Laid.mk code all start
  have large (env : Env) : maxDepth (items ++ [.instr .finish 0])
      ≤ (entry chunk env).env.stack.size := by
    have enough : chunk.maxStack ≤ (entry chunk env).env.stack.size :=
      le_size_reserved chunk.maxStack env
    omega
  have level : Level (· < maxDepth (items ++ [.instr .finish 0])) 0 (entry chunk env).env
      (entry chunk env').env := by
    refine ⟨{ alike with }, fun k reached => ?_, fun k below => absurd below (by omega)⟩
    have here := large env
    have there := large env'
    exact iff_of_true (by omega) (by omega)
  rw [run_run, run_run]
  refine relates_runFrom stateless (fun f (stands : StandsIn True _ f) => ⟨fun i found => ?_, ?_⟩) fuel
    (.start laid) level
  · obtain ⟨j, depth, stands⟩ := stands
    cases (stands.decoded laid).symm.trans found
    exact stands.reaches laid
  · exact fun env f' env' => stands.round laid

end Machine

end MapAlgebra

import Recompose.Instruction
import Recompose.MethodId
import Recompose.Profile

/-!
The method that an instruction depends on: one that it calls statically, or the body of the lambda
that it creates. Other calls are decided when they are made and name no method for certain.
-/

namespace Recompose

namespace Instruction

def dependency? (profile : Profile) : Instruction → Option MethodId
  | call opcode target =>
    if opcode = Opcode.invokestatic ∧ ¬profile.excludesDependency target.owner then
      some ⟨target.owner, target.name, target.descriptor⟩
    else
      none
  | dynamic _ _ bootstrap arguments =>
    if profile.isLambdaBootstrap bootstrap.owner bootstrap.name then
      match arguments with
      | _ :: .methodHandle body :: _ => some ⟨body.owner, body.name, body.descriptor⟩
      | _ => none
    else
      none
  | _ => none

/-- What a marker call does to the scopes. -/
def action? (profile : Profile) : Instruction → Option MarkerAction
  | call _ target => profile.actionOf? target.owner target.name target.descriptor
  | _ => none

end Instruction

end Recompose

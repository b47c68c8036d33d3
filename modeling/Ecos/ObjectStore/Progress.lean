import Ecos.ObjectStore.Refinement

namespace Ecos.ObjectStore
open Go Logic Std Alaya Client

variable {ring : Mapper} {a : AlayaEnv} {s : System} {j : ℕ} {g : Get}

section
variable {ideal : Bytes → Option Bytes} {infos : List BlockInfo} {ds : List Bytes}

theorem sum_sizes (h : Describes ideal infos ds) :
    (infos.map fun b => b.blockSize.toNat).sum = ds.flatten.length := by
  induction h with
  | nil => rfl
  | cons hb _ ih =>
    rw [List.map_cons, List.sum_cons, List.flatten_cons, List.length_append, ih, hb.1]

end

end Ecos.ObjectStore

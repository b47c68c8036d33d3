import Ecos.Go.Strings
import Ecos.Logic.KeyLog

namespace Ecos
open Go Logic Std

abbrev ByteMap (ν : Type) := ExtTreeMap Bytes ν compare

structure Codec (α β : Type) where
  marshal : α → β
  unmarshal : β → Option α
  unmarshal_marshal : ∀ a, unmarshal (marshal a) = some a

def Codec.refl (α : Type) : Codec α α := ⟨id, some, fun _ => rfl⟩

theorem ByteMap.getElem?_insert {ν : Type} (m : ByteMap ν) (k : Bytes) (v : ν) :
    (fun j => (m.insert k v)[j]?) = applyOp (fun j => m[j]?) (.put k v) := by
  funext j
  rw [ExtTreeMap.getElem?_insert, applyOp, Function.update_apply]
  simp only [LawfulEqCmp.compare_eq_iff_eq, @eq_comm _ j k, Op.key, Op.value]

theorem ByteMap.getElem?_erase {ν : Type} (m : ByteMap ν) (k : Bytes) :
    (fun j => (m.erase k)[j]?) = applyOp (fun j => m[j]?) (.delete k) := by
  funext j
  rw [ExtTreeMap.getElem?_erase, applyOp, Function.update_apply]
  simp only [LawfulEqCmp.compare_eq_iff_eq, @eq_comm _ j k, Op.key, Op.value]

end Ecos

import Mathlib.Data.List.Nodup
import Mathlib.Tactic.Common

/-!
# Lists by keys

Reports and ledgers are listed stream by stream and number by number. What is listed for keys that
do not repeat does not repeat either, as the key of an element says where it is listed
(`nodup_flatMap_of_keys`), and the keys for which something is found are some of those looked up
(`map_key_filterMap`).
-/

set_option autoImplicit false
set_option relaxedAutoImplicit false

namespace Congestion

variable {α β κ : Type}

theorem nodup_flatMap_of_keys {l : List α} {part : α → List β} {tag : α → κ} (key : β → κ)
    (htags : (l.map tag).Nodup) (hparts : ∀ a ∈ l, (part a).Nodup)
    (hkeys : ∀ a ∈ l, ∀ b ∈ part a, key b = tag a) : (l.flatMap part).Nodup := by
  refine List.nodup_flatMap.mpr ⟨hparts, ?_⟩
  refine (List.pairwise_map.mp htags).imp_of_mem fun {a a'} ha ha' hne b hb hb' ↦ ?_
  exact hne ((hkeys a ha b hb).symm.trans (hkeys a' ha' b hb'))

theorem map_key_filterMap {find : α → Option β} {key : β → α}
    (hkey : ∀ a b, find a = some b → key b = a) (l : List α) :
    (l.filterMap find).map key = l.filter fun a ↦ (find a).isSome := by
  rw [List.map_filterMap, ← List.filterMap_eq_filter]
  refine List.filterMap_congr fun a _ ↦ ?_
  cases hfind : find a with
  | none => simp [Option.guard, hfind]
  | some b => simp [Option.guard, hfind, hkey a b hfind]

end Congestion

import Tessera.Transactions.Annals
import Tessera.Transactions.Vigil

/-!
# Calls that begin later

What is shown of the calls that begin after a given moment of a run may count on that moment: the
committed state has only grown since.  Nothing is asked of them but what they answer.

* `wp_of_along` — what holds of an answer whatever the session takes in;
* `World.Sound.since` — the sessions that begin after a moment of a run.
-/

namespace Transactions

variable {σ κ ω ι ε α Call : Type}

/-- Terms that ask for nothing. -/
abbrev Terms.free : Terms σ κ ω := .committing fun _ _ => True

section
variable {D : Database σ ω ε} {R : Discipline σ κ ω}

/-- Whatever a session takes in, it answers so. -/
theorem wp_of_along {Q : Except ε α → Prop} {p : Program σ κ ω ι ε α} :
    ∀ {h f s}, p.Along D anyCommit h f (fun r _ _ => Q r) →
      wp D R.eased .free p f s fun r _ _ => Q r := by
  induction p with
  | done r => exact fun hp => hp
  | input next ih => exact fun hp x => ih x (hp x)
  | query next ih => exact fun hp s' _ => ih _ (hp s')
  | lock key mode next ih => exact fun hp s' _ => ⟨trivial, fun _ => ih _ (hp s')⟩
  | write row next ih =>
    exact fun hp => ⟨List.nil_subset _, fun s' _ _ => ⟨trivial, ih hp⟩⟩
  | instant row next ih => exact fun hp s' _ => ⟨trivial, ih _ (hp s')⟩
  | commit next ih =>
    exact fun hp s' _ _ => ⟨fun _ => ⟨trivial, ih _ hp.2.1⟩, fun e _ => ih _ (hp.2.2 e)⟩
  | rollback next ih => exact fun hp s' _ => ih hp

/-- Nothing is asked of a session at all. -/
theorem wp_anything {p : Program σ κ ω ι ε α} {f : Standing σ κ ω} {s : σ} :
    wp D R.eased .free p f s fun _ _ _ => True :=
  wp_of_along (h := []) (Program.Along.of_forall (fun _ _ => trivial) fun _ _ _ => trivial)

variable {program : Call → Program σ κ ω ι ε α} {terms : Call → Terms σ κ ω}
variable {post : ℕ → Call → Post σ κ ω ε α} {Q : Call → Post σ κ ω ε α}

/-- The sessions that begin after a moment of a run, when the calls are known to end in `Q` from
every state that has grown from the one at that moment. -/
theorem World.Sound.since [DecidableEq κ] (hV : Verified D R program terms post)
    {admits : World σ κ ω ι ε α Call → Event ι Call → Prop}
    (hadmits : ∀ w e, admits w e → Admits terms w e) {w₀ w : World σ κ ω ι ε α Call}
    (hw₀ : w₀.Sound D R terms post) (hstable : ∀ call, (Q call).Stable R.eased)
    (hlost : ∀ call f s, Q call (.error D.lost) f s)
    (hstart : ∀ call s, R.inv s → R.grows w₀.db s →
      wp D R.eased .free (program call) {} s (Q call))
    (hrun : World.Run D program admits w₀ w) {i : ℕ} {t : Session σ κ ω ι ε α Call}
    (hi : w₀.sessions.length ≤ i) (ht : w.sessions[i]? = some t) :
    wp D R.eased .free t.program t.standing w.db (Q t.call) := by
  have hR : R.eased.Regular := hV.discipline.toRegular.eased
  induction hrun generalizing i t with
  | refl => exact absurd (List.getElem?_eq_some_iff.1 ht).1 (not_lt.2 hi)
  | @tail w w' e hr ha hs ih =>
    obtain ⟨hw, hgrows⟩ := World.Sound.run hV hadmits hr hw₀
    cases e with
    | start call =>
      cases hs
      rcases getElem?_append_one ht with ht | ⟨-, rfl⟩
      · exact ih hi ht
      · exact hstart call w.db hw.inv hgrows
    | run j x =>
      simp only [World.step, Option.bind_eq_some_iff] at hs
      obtain ⟨u, hu, hs⟩ := hs
      split at hs
      case isFalse => cases hs
      case isTrue =>
      obtain ⟨r, hr, rfl⟩ := Option.map_eq_some_iff.1 hs
      have hsession := hw.session hu
      have hadmitted := hadmits _ _ ha u hu
      rcases getElem?_set_some ht with ⟨rfl, rfl⟩ | ⟨hji, ht⟩
      · exact (turned_both hsession.safe (ih hi hu) (.refl hV.discipline.toRegular hw.inv _)
          (.refl hR hw.inv _) trivial hadmitted trivial hr).1
      · have hturn := turned hV.discipline (hV.lawful u.call) hw.inv hsession.safe
          hsession.covered hsession.tidy hsession.earned hadmitted hr
        have hrely := hw.rely hji hu ht hturn.inv hturn.grows hturn.same
        exact wp_stable hR (hstable t.call) hrely.eased (ih hi ht)
    | kill j =>
      obtain ⟨u, hu, rfl⟩ := Option.map_eq_some_iff.1 hs
      rcases getElem?_set_some ht with ⟨rfl, rfl⟩ | ⟨-, ht⟩
      · exact hlost _ _ _
      · exact ih hi ht

end

end Transactions

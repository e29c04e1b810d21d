import ChartPlan.Proofs.Warnings
import ChartPlan.View.Basic

/-!
# Refused charts

Whoever reads a part of a chart refuses it for what is written there: no reader, and nothing in the
naming of views, blames the dataflow. What they note are warnings.

* `Chart.proper_read`: the views of an input.
* `View.proper_build`: the named views of a chart.
-/

namespace ChartPlan

/-! ### Transforms -/

namespace Predicate

theorem fair_readField (fields : Dict Json) : Fair (readField fields) := by
  unfold readField
  split
  · rfl
  · split <;> trivial

theorem fair_readDeep (fuel : Nat) (v : Json) : Fair (readDeep fuel v) := by
  induction fuel generalizing v with
  | zero => cases v <;> trivial
  | succ fuel ih =>
    cases v with
    | obj fields =>
      unfold readDeep
      -- the operands of `and` and `or` are the only list that is read
      have hoperands : ∀ items : List Json, Fair (items.mapM (readDeep fuel)) :=
        fun items => Fair.mapM fun v _ => ih v
      split
      · refine Fair.map ?_ _
        dsimp only
        split
        · exact hoperands _
        · rfl
      · refine Fair.map ?_ _
        dsimp only
        split
        · exact hoperands _
        · rfl
      · exact (ih _).map _
      · trivial
      · exact fair_readField fields
    | _ => trivial

theorem fair_read (v : Json) : Fair (read v) :=
  fair_readDeep _ v

end Predicate

namespace Transform

theorem fair_readEstimate (method : Estimate) (f : Dict Json) : Fair (readEstimate method f) := by
  unfold readEstimate
  split
  · rfl
  · dsimp only
    split
    · rfl
    · split <;> trivial

theorem fair_read (v : Json) : Fair (read v) := by
  unfold read
  split
  · split
    · exact (Predicate.fair_read _).map _
    · split
      · split <;> trivial
      · split
        · exact fair_readEstimate _ _
        · rfl
  · rfl

end Transform

/-! ### Data -/

theorem Origin.fair_readSequence (v : Json) : Fair (Origin.readSequence v) := by
  unfold Origin.readSequence
  dsimp only
  split <;> trivial

theorem Origin.fair_read (fields : Dict Json) (name : Option String) :
    Fair (Origin.read fields name) := by
  unfold Origin.read
  split
  case h_4 => exact Origin.fair_readSequence _
  all_goals trivial

theorem ParseRule.fair_read (v : Option Json) : Fair (ParseRule.read v) := by
  unfold ParseRule.read
  split <;> trivial

theorem DataSetting.fair_read (v : Option Json) : Fair (DataSetting.read v) := by
  unfold DataSetting.read
  split
  · trivial
  · trivial
  · refine Fair.bind (Origin.fair_read _ _) fun origin => ?_
    exact Fair.bind (ParseRule.fair_read _) fun parse => trivial
  · rfl

/-! ### Encodings -/

open Checked

namespace ChannelDef

theorem proper_readType (channel : String) (fields : Dict Json) (aggregate : Option String)
    (bin : Option Bin) (unit : Option TimeUnit) :
    (readType channel fields aggregate bin unit).Proper := by
  unfold readType
  split
  · split
    · exact proper_pure _
    · exact proper_fail rfl
  · dsimp only
    split
    · exact (proper_warn _).map
    · exact proper_pure _

theorem proper_readField (channel : String) (fields : Dict Json) :
    (readField channel fields).Proper := by
  unfold readField
  split
  · exact proper_pure _
  · exact proper_pure _
  · exact proper_fail rfl

theorem proper_read (channel : String) (fields : Dict Json) : (read channel fields).Proper := by
  refine (proper_readField channel fields).bind fun field => ?_
  dsimp only
  split
  · exact proper_pure _
  · exact (proper_readType _ _ _ _ _).map

theorem proper_readItem (channel : String) (v : Json) : (readItem channel v).Proper := by
  unfold readItem
  split
  · refine (proper_read _ _).bind fun d => ?_
    split
    · exact proper_pure _
    · split
      · exact proper_read _ _
      · exact proper_pure _
  · exact proper_pure _

end ChannelDef

theorem Encoding.proper_read (v : Option Json) : (Encoding.read v).Proper := by
  have hchannel (channel : String) (v : Json) : (readChannel channel v).Proper :=
    (proper_mapM (ChannelDef.proper_readItem channel) _).map
  unfold Encoding.read
  split
  · exact proper_pure _
  · refine (proper_mapM (fun entry => ?_) _).map
    exact (hchannel entry.1 entry.2).map
  · exact proper_fail rfl

/-! ### Views -/

theorem Param.fair_readSelection (name : String) (v : Json) : Fair (Param.readSelection name v) := by
  unfold Param.readSelection
  dsimp only
  split <;> trivial

theorem Param.fair_read (v : Json) : Fair (Param.read v) := by
  unfold Param.read
  split
  · rfl
  · split
    · trivial
    · exact Fair.bind ((Param.fair_readSelection _ _).map _) fun select => trivial

theorem FacetMapping.proper_read (v : Json) : (FacetMapping.read v).Proper := by
  unfold FacetMapping.read
  split
  · split <;> exact (Encoding.proper_read _).map
  · exact proper_fail rfl

namespace Chart

theorem fair_readMark (path : String) (v : Json) : Fair (readMark path v) := by
  unfold readMark
  split
  · trivial
  · split <;> trivial
  · rfl

theorem fair_readTransforms (path : String) (v : Option Json) : Fair (readTransforms path v) := by
  unfold readTransforms
  split
  · trivial
  · exact Fair.mapM fun t _ => Transform.fair_read t
  · rfl

theorem fair_readParams (v : Option Json) : Fair (readParams v) := by
  unfold readParams
  split
  · exact Fair.mapM fun p _ => Param.fair_read p
  · trivial

theorem fair_readView (path : String) (fields : Dict Json) (body : Body) :
    Fair (readView path fields body) := by
  refine Fair.bind (fair_readTransforms _ _) fun transforms => ?_
  refine Fair.bind (fair_readParams _) fun params => ?_
  exact Fair.bind (DataSetting.fair_read _) fun data => trivial

section Children

variable {readChild : String → Json → Checked Chart}

theorem proper_readViews (hread : ∀ path v, (readChild path v).Proper) (path key : String) (v : Json) :
    (readViews readChild path key v).Proper := by
  unfold readViews
  split
  · exact proper_mapM (fun _ => hread _ _) _
  · exact proper_fail rfl

theorem proper_readCopies (hread : ∀ path v, (readChild path v).Proper) (path : String)
    (layout spec : Json) : (readCopies readChild path layout spec).Proper := by
  unfold readCopies
  split
  · exact proper_mapM (fun _ => hread _ _) _
  · exact proper_fail rfl

theorem proper_readUnit (path : String) (fields : Dict Json) : (readUnit path fields).Proper := by
  unfold readUnit
  split
  · refine (proper_ofExcept (fair_readMark path _)).bind fun mark => ?_
    exact (Encoding.proper_read _).map
  · exact proper_fail rfl

theorem proper_readBody (hread : ∀ path v, (readChild path v).Proper) (path : String)
    (fields : Dict Json) : (readBody readChild path fields).Proper := by
  unfold readBody
  split
  · exact (proper_readViews hread _ _ _).map
  · exact (proper_readCopies hread _ _ _).map
  · refine (FacetMapping.proper_read _).bind fun mapping => ?_
    exact (hread _ _).map
  · exact (proper_readViews hread _ _ _).map
  · exact proper_readUnit path fields

end Children

theorem proper_readDeep (fuel : Nat) (path : String) (v : Json) : (readDeep fuel path v).Proper := by
  induction fuel generalizing path v with
  | zero => exact proper_fail rfl
  | succ fuel ih =>
    cases v with
    | obj fields =>
      refine (proper_readBody ih path fields).bind fun parts => ?_
      exact (proper_ofExcept (fair_readView _ _ _)).map
    | _ => exact proper_fail rfl

theorem proper_read (v : Json) : (read v).Proper :=
  proper_readDeep _ _ v

end Chart

/-! ### Named views -/

namespace Stacking

theorem fair_stackedOf (e : Encoding) (a b : String) : Fair (stackedOf e a b) := by
  unfold stackedOf
  dsimp only
  split <;> trivial

theorem proper_along (e : Encoding) (channel : String) (d : ChannelDef) (offset : String) :
    (along e channel d offset).Proper := by
  have hwarn {β : Type} (message : String) (b : β) : (do warn message; return b).Proper :=
    (proper_warn message).bind fun _ => proper_pure b
  unfold along
  dsimp only
  split
  · exact hwarn _ _
  · split
    · exact proper_pure _
    · split
      · split
        · exact hwarn _ _
        · exact proper_pure _
      · split
        · split
          · exact hwarn _ _
          · exact proper_pure _
        · exact proper_pure _

theorem proper_ofEncoding (mark : String) (e : Encoding) : (ofEncoding mark e).Proper := by
  refine (proper_ofExcept (fair_stackedOf e _ _)).bind fun cartesian => ?_
  refine (proper_ofExcept (fair_stackedOf e _ _)).bind fun polar => ?_
  split
  · exact proper_pure _
  · split
    · exact proper_pure _
    · split
      · exact proper_pure _
      · split
        · exact proper_pure _
        · exact proper_along _ _ _ _

end Stacking

namespace View

theorem proper_stackOf (body : Body) : (stackOf body).Proper := by
  cases body with
  | unit mark encoding => exact Stacking.proper_ofEncoding _ _
  | _ => exact proper_pure _

mutual

theorem proper_buildNamed (given : String) : (c : Chart) → (buildNamed given c).Proper
  | .node s children => by
    unfold buildNamed
    refine (proper_stackOf s.body).bind fun stack => ?_
    exact (proper_buildAll _ 0 children).map

theorem proper_buildAll (names : Nat → String) (i : Nat) :
    (cs : List Chart) → (buildAll names i cs).Proper
  | [] => by
    unfold buildAll
    exact proper_pure _
  | c :: rest => by
    unfold buildAll
    refine (proper_buildNamed (names i) c).bind fun t => ?_
    exact (proper_buildAll names (i + 1) rest).map

end

end View

end ChartPlan

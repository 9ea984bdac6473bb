import ScriptC.Proofs.Lower.Operator

/-!
Assignments and patterns keep to a setting.
-/

namespace ScriptC.Lower

open scoped C.Expr

variable {S : Setting} {pre : Prop} {n : Node} {E : Eval} {v e : C.Expr} {r : Reference}

namespace Reference

def Reachable (S : Setting) : Reference → Prop
  | .self d _ | .variable d => S.reaches d
  | .super _ _ => ∀ d, S.thisOwner.this = some d → S.reaches d
  | .named n _ _ => S.Fits n
  | _ => True

def Evaluated (S : Setting) : Reference → Prop
  | .withName x y | .super x y | .named _ x y | .element x y => S.Part x ∧ S.Part y
  | .global x => S.Part x
  | .self .. | .variable _ => True

def isName : Reference → Bool
  | .withName .. | .self .. | .variable _ => true
  | _ => false

end Reference

theorem Sound.get (hE : Sound S E) (hr : r.Reachable S) :
    Writes S (r.Evaluated S) (r.get E) S.Code := by
  cases r with
  | withName name fallback => exact .pure fun h => by simp +decide [Setting.Code, h.1, h.2]
  | self d name => exact (writes_load hr).mono id fun _ h => h.1
  | «variable» d => exact (writes_load hr).mono id fun _ h => h.1
  | global name =>
    refine .pure fun (h : S.Part name) => ?_
    simp +decide [Setting.Code, h]
  | super home key =>
    apply Meets.thisOwner
    refine (writes_loadOption hr).bind fun this _ => ?_
    refine .pure ?_
    rintro ⟨h, hthis⟩
    simp +decide [Setting.Code, h.1, h.2, hthis.1]
  | named n o key => exact (hE.readMember hr o).mono And.left fun _ h => h.1
  | element o k => exact (writes_readElement o k).mono id fun _ h => h.1

structure Setting.Puts (S : Setting) (r : Reference) (v e : C.Expr) : Prop
    extends S.Stores v e where
  isPlain : v.isPlain → e.isPlain
  tail : r.isName = false → S.Tail e

theorem Setting.Puts.ofTail (h : S.Tail e) : S.Puts r v e :=
  ⟨⟨h.part, fun _ => h.2, fun _ => C.Expr.isCalm_of_isPlain h.1.2⟩, fun _ => h.1.2, fun _ => h⟩

theorem writes_set (hr : r.Reachable S) (v : C.Expr) :
    Writes S (r.Evaluated S ∧ S.Part v) (r.set v) (S.Puts r v) := by
  cases r with
  | withName name fallback =>
    refine .pure ?_
    rintro ⟨h, hv⟩
    refine .ofTail ?_
    simp +decide [Setting.Tail, Setting.Code, h.1, h.2, hv]
  | self d name =>
    apply Meets.function
    split
    . refine .pure ?_
      rintro ⟨_, hv⟩
      exact ⟨⟨hv, id, id⟩, id, by simp [Reference.isName]⟩
    . refine .string fun text => ?_
      refine .pure ?_
      rintro ⟨_, hv⟩
      refine ⟨⟨by simp +decide [hv], fun h => ?_, fun h => ?_⟩, fun h =>
        ?_, by simp [Reference.isName]⟩
      . exact C.Expr.isSolid_comma_last (l := [_]) h
      . apply C.Expr.isCalm_comma
        rintro _ (_ | ⟨_, _ | ⟨_, ⟨⟩⟩⟩)
        . rfl
        . exact h
      . apply C.Expr.isPlain_comma
        rintro _ (_ | ⟨_, _ | ⟨_, ⟨⟩⟩⟩)
        . rfl
        . exact h
  | «variable» d =>
    refine (writes_storage hr).bind fun place _ => ?_
    refine .pure ?_
    rintro ⟨⟨_, hv⟩, hplace⟩
    refine .ofTail ?_
    obtain ⟨text, rfl, htext, hreads⟩ := hplace.reads hr
    simp [Setting.Tail, Setting.Code, hreads, hv, htext]
  | global name =>
    apply Meets.function
    refine .pure ?_
    rintro ⟨(h : S.Part name), hv⟩
    refine .ofTail ?_
    simp +decide [Setting.Tail, Setting.Code, h, hv]
  | super home key =>
    refine (writes_readableForm v).bindOf And.right ?_
    rintro ⟨keep, v⟩ _
    apply Meets.thisOwner
    refine (writes_loadOption hr).bind fun this _ => ?_
    refine .pure ?_
    rintro ⟨⟨⟨h, _⟩, hkeep, hv⟩, hthis⟩
    refine .ofTail (.after ?_ hkeep)
    simp +decide [Setting.Tail, Setting.Code, h.1, h.2, hv.1, hthis.1]
  | named n o key =>
    refine (writes_readableForm v).bindOf And.right ?_
    rintro ⟨keep, v⟩ _
    refine (writes_writeNamed hr.suits o key v).bindOf
      (fun h => ⟨h.1.1.1, h.1.1.2, h.2.2.1⟩) fun e _ => ?_
    refine .pure ?_
    rintro ⟨⟨_, hkeep, _⟩, he⟩
    exact .ofTail (he.after hkeep)
  | element o k =>
    refine (writes_readableForm v).bindOf And.right ?_
    rintro ⟨keep, v⟩ _
    refine .pure ?_
    rintro ⟨⟨h, _⟩, hkeep, hv⟩
    refine .ofTail (.after ?_ hkeep)
    refine ⟨⟨part_writeElement h.1 h.2 hv.1, ?_⟩, ?_⟩ <;> simp [writeElement]

theorem reaches_of_use {d : Nat} (h : S.Fits n) (hd : S.bindings.use? n = some (.direct d)) :
    S.reaches d :=
  h.suits.resolved d (by simp [Bindings.resolved?, hd, Binding.decl?])

theorem writes_nameReference {at_ : Node} {mode : TargetUse} (h : S.Fits n) :
    Meets S pre (nameReference n at_ mode) (fun r => r.Reachable S ∧ r.isName)
      (Reference.Evaluated S) := by
  unfold nameReference
  refine yields_isWithName.andThen fun isWith _ => ?_
  split
  . refine .string fun text => ?_
    refine (writes_fallbackCell h).bind fun c _ => ?_
    refine .pureOf ⟨trivial, rfl⟩ ?_
    rintro ⟨_, hc⟩
    exact ⟨by simp, hc.1⟩
  . apply Meets.bindings
    split
    . next d hd =>
      have hreach := reaches_of_use h hd
      dsimp only
      split
      . exact .fail (by simp)
      . split
        . exact .pureOf ⟨hreach, rfl⟩ fun _ => trivial
        . exact .pureOf ⟨hreach, rfl⟩ fun _ => trivial
    . exact .fail (by simp)

theorem Sound.memberReference (hE : Sound S E) {mode : TargetUse} (h : S.Fits n) :
    Meets S pre (memberReference E n mode)
      (fun r => r.2.Reachable S ∧ r.2.isName = false)
      fun r => S.Parts r.1 ∧ r.2.Evaluated S := by
  unfold Lower.memberReference
  split
  . refine yields_globalName.andThen ?_
    rintro _ ⟨text, rfl⟩
    exact .pureOf ⟨trivial, rfl⟩ fun _ => by simp [Reference.Evaluated]
  . dsimp only
    split
    . next hsuper =>
      obtain ⟨o, ho, hkind⟩ := (Option.any_eq_true _ _).1 hsuper
      have hthis := (h.part? .object rfl o ho).suits.super (by simpa using hkind)
      apply Meets.bindings
      refine (writes_loadOption (h.part? _ rfl).reaches).bind fun home _ => ?_
      refine (hE.propertyKey h).bind fun key _ => ?_
      refine (writes_keep key).bindOf And.right fun r _ => ?_
      refine .pureOf ⟨?_, rfl⟩ ?_
      . intro d hd
        simpa [hd] using hthis
      . rintro ⟨⟨⟨_, hhome⟩, _⟩, hr⟩
        exact ⟨hr.1, hhome.1, hr.2⟩
    . refine (hE.expr (h.part? _ rfl)).bind fun base _ => ?_
      refine (writes_keep base).bindOf (fun h => h.2.1) fun r _ => ?_
      split
      . refine (hE.propertyKey h).bind fun key _ => ?_
        refine .pureOf ⟨h, rfl⟩ ?_
        rintro ⟨⟨_, hr⟩, hkey⟩
        exact ⟨hr.1, hr.2, hkey⟩
      . refine (hE.propertyKey h).bind fun key _ => ?_
        refine (writes_keep _).bindOf ?_ fun r' _ => ?_
        . rintro ⟨_, hkey⟩
          split
          . simpa +decide using hkey
          . exact hkey
        . refine .pureOf ⟨trivial, rfl⟩ ?_
          rintro ⟨⟨⟨_, hr⟩, _⟩, hr'⟩
          refine ⟨?_, hr.2, hr'.2⟩
          exact C.Expr.allObey_append.2 ⟨hr.1, hr'.1⟩

theorem Sound.reference (hE : Sound S E) {target : Option Node} {at_ : Node} {mode : TargetUse}
    (h : S.FitsOption target) :
    Meets S pre (reference E target at_ mode)
      (fun r => r.2.Reachable S ∧ (r.2.isName → r.1 = []))
      fun r => S.Parts r.1 ∧ r.2.Evaluated S := by
  unfold Lower.reference
  split
  . exact .fail (by simp)
  . next t =>
    have ht := h t rfl
    split
    . refine (writes_nameReference ht).bind fun r hr => ?_
      exact .pureOf ⟨hr.1, fun _ => rfl⟩ fun h => ⟨trivial, h.2⟩
    . exact (hE.memberReference ht).weakenYield fun r hr => ⟨hr.1, by simp [hr.2]⟩
    . exact .fail (by simp)

theorem stores_comma {l : List C.Expr} (hl : S.Steps l) (hname : r.isName → l = [])
    (h : S.Puts r v e) :
    S.Stores v (.comma (l ++ [e])) ∧ (v.isPlain → (C.Expr.comma (l ++ [e])).isPlain) := by
  have hpart : S.Part (.comma (l ++ [e])) := Setting.part_comma_last hl h.part
  cases hr : r.isName with
  | true =>
    obtain rfl := hname hr
    refine ⟨⟨hpart, fun hv => C.Expr.isSolid_comma_last (h.isSolid hv), fun hv => ?_⟩, fun hv => ?_⟩
    . apply C.Expr.isCalm_comma
      rintro _ (_ | ⟨_, ⟨⟩⟩)
      exact h.isCalm hv
    . apply C.Expr.isPlain_comma
      rintro _ (_ | ⟨_, ⟨⟩⟩)
      exact h.isPlain hv
  | false =>
    have ht := Setting.Tail.comma hl (h.tail hr)
    exact ⟨⟨hpart, fun _ => ht.2, fun _ => C.Expr.isCalm_of_isPlain ht.1.2⟩, fun _ => ht.1.2⟩

theorem tail_of_two (l₁ l₂ l₃ : List C.Expr) {x : C.Expr} (hx : x.isSolid) (he : e.isSolid)
    (h : S.Part (.comma (l₁ ++ x :: (l₂ ++ e :: l₃)))) :
    S.Tail (.comma (l₁ ++ x :: (l₂ ++ e :: l₃))) := by
  have hlen := C.Expr.two_le_length_elements l₁ l₂ l₃ hx he
  exact ⟨⟨h, C.Expr.isPlain_comma_of_two hlen⟩, C.Expr.isSolid_comma_of_two hlen⟩

theorem tail_comma_of_two (l₁ l₂ l₃ : List C.Expr) {x : C.Expr} (hx : x.isSolid) (he : e.isSolid)
    (h : S.Steps (l₁ ++ x :: (l₂ ++ e :: l₃))) : S.Tail (.comma (l₁ ++ x :: (l₂ ++ e :: l₃))) := by
  have hpart : S.Part x := (C.Expr.step_iff (by rintro ⟨⟩; cases hx)).1 (h x (by simp))
  exact tail_of_two l₁ l₂ l₃ hx he (Setting.part_comma h fun _ => ⟨x, by simp, hpart⟩)

theorem Sound.assign (hE : Sound S E) (h : S.Fits n) : Writes S pre (assign E n) S.Code := by
  unfold Lower.assign
  dsimp only
  split
  . split
    . refine writes_temp.bind ?_
      rintro _ ⟨i, rfl⟩
      refine (hE.expr (h.part? _ rfl)).bind fun v _ => ?_
      refine (hE.destructureOption _ _ (h.part? _ rfl)).bindOf (fun h => h.1.2.part) fun e _ => ?_
      refine .pure ?_
      rintro ⟨⟨⟨_, ht⟩, hv⟩, he⟩
      refine (tail_comma_of_two [] [e] [] rfl rfl ?_).1
      simp [hv.1, he.part, ht.var]
    . refine (hE.reference (h.part? _ rfl)).bind fun r hr => ?_
      refine (hE.expr (h.part? _ rfl)).bind fun v _ => ?_
      refine (writes_set hr.1 v).bindOf (fun h => ⟨h.1.2.2, h.2.1⟩) fun e _ => ?_
      refine .pure ?_
      rintro ⟨⟨⟨_, hpre⟩, hv⟩, he⟩
      have hs := stores_comma hpre.1.steps hr.2 he
      exact ⟨hs.1.part, hs.2 hv.2⟩
  . refine (hE.reference (h.part? _ rfl)).bind fun r hr => ?_
    have hchoose {pre : Prop} (choose : C.Expr → C.Expr → C.Expr → C.Expr)
        (hc : ∀ x y z, S.Part x → S.Part y → S.Part z → S.Tail (choose x y z)) :
        Writes S (pre ∧ S.Parts r.1 ∧ r.2.Evaluated S) (do
          let t ← temp
          let current := .set t (← r.2.get E)
          let v ← E.expr (n.part? .right)
          let store ← r.2.set v
          return .comma (r.1 ++ [choose current store t])) S.Code := by
      refine writes_temp.bind fun t _ => ?_
      refine (hE.get hr.1).bindOf (fun h => h.1.2.2) fun old _ => ?_
      refine (hE.expr (h.part? _ rfl)).bind fun v _ => ?_
      refine (writes_set hr.1 v).bindOf (fun h => ⟨h.1.1.1.2.2, h.2.1⟩) fun store _ => ?_
      refine .pure ?_
      rintro ⟨⟨⟨⟨⟨_, hpre, _⟩, ht⟩, hold⟩, _⟩, hstore⟩
      have hset : S.Part (.set t old) := by simp [ht.targets, ht.part, hold.1]
      exact (Setting.Tail.comma hpre.steps (hc _ _ _ hset hstore.part ht.part)).1
    split
    . apply hchoose fun current store t => .cond (.callEnv Engine.isTruthy [current]) store t
      intro x y z hx hy hz
      simp +decide [Setting.Tail, Setting.Code, hx, hy, hz]
    . apply hchoose fun current store t => .cond (.callEnv Engine.isTruthy [current]) t store
      intro x y z hx hy hz
      simp +decide [Setting.Tail, Setting.Code, hx, hy, hz]
    . apply hchoose fun current store t => .cond (.call Engine.isNullish [current]) store t
      intro x y z hx hy hz
      simp +decide [Setting.Tail, Setting.Code, hx, hy, hz]
    . refine (hE.get hr.1).bindOf (fun h => h.2.2) fun old _ => ?_
      refine (hE.expr (h.part? _ rfl)).bind fun v _ => ?_
      refine (writes_arith n _ old v).bindOf (fun h => ⟨h.1.2.1, h.2.1⟩) fun result _ => ?_
      refine (writes_set hr.1 result).bindOf (fun h => ⟨h.1.1.1.2.2, h.2.part⟩) fun e _ => ?_
      refine .pure ?_
      rintro ⟨⟨⟨⟨⟨_, hpre⟩, _⟩, _⟩, hresult⟩, he⟩
      have hs := stores_comma hpre.1.steps hr.2 he
      exact ⟨hs.1.part, hs.2 hresult.1.2⟩

theorem Sound.update (hE : Sound S E) (wanted : Bool) (h : S.Fits n)
    (hn : n.kind ≠ .taggedTemplate) : Writes S pre (update E n wanted) S.Tail := by
  unfold Lower.update
  refine (hE.reference (h.own fun _ => hn)).bind fun r hr => ?_
  generalize updateMarks n = marks
  refine writes_temp.bind ?_
  rintro _ ⟨i, rfl⟩
  refine writes_temp.bind ?_
  rintro _ ⟨j, rfl⟩
  refine (hE.get hr.1).bindOf (fun h => h.1.1.2.2) fun current _ => ?_
  refine (writes_set hr.1 _).bindOf (fun h => ⟨h.1.1.1.2.2, h.1.2.part⟩) fun store _ => ?_
  refine .pure ?_
  rintro ⟨⟨⟨⟨⟨_, hpre, _⟩, hi⟩, hj⟩, hcurrent⟩, hstore⟩
  refine tail_comma_of_two _ [store] [] rfl ?_ ?_
  . split <;> rfl
  . simp +decide [C.Expr.step_iff, numberValue, hpre.steps, hcurrent.1, hstore.part, hi.var, hj.var]
    split <;> simp [hi.var, hj.var]

/-! Patterns -/

theorem Setting.Tail.stores (h : S.Tail e) : S.Stores v e :=
  ⟨h.part, fun _ => h.2, fun _ => C.Expr.isCalm_of_isPlain h.1.2⟩

theorem Sound.bindDefault (hE : Sound S E) (v : C.Expr) (mode : TargetUse) (h : S.Fits n) :
    Writes S (S.Part v) (bindDefault E n v mode) S.Tail := by
  unfold Lower.bindDefault
  refine writes_temp.bind ?_
  rintro _ ⟨i, rfl⟩
  refine (hE.expr (h.part? _ rfl)).bind fun dflt _ => ?_
  refine (hE.destructureOption _ _ (h.part? _ rfl)).bindOf (fun h => h.1.2.part) fun e _ => ?_
  refine .pure ?_
  rintro ⟨⟨⟨hv, ht⟩, hdflt⟩, he⟩
  refine tail_comma_of_two [] [] [] rfl (he.isSolid rfl) ?_
  simp [bitsEqual, hv, hdflt.1, he.part, ht.var]

theorem Sound.patternElements (hE : Sound S E) (it : C.Expr) (mode : TargetUse)
    {list : List (Option Node)} (h : ∀ o ∈ list, S.FitsOption o) :
    Writes S (S.Part it) (patternElements E it mode list) S.Parts := by
  fun_induction Lower.patternElements E it mode list with
  | case1 => exact .pure fun _ => trivial
  | case2 rest ih =>
    refine (ih (List.forall_mem_cons.1 h).2).bindOf id fun es _ => ?_
    refine .pure ?_
    rintro ⟨hit, hes⟩
    simp +decide [hit, hes]
  | case3 el rest ih =>
    rw [List.forall_mem_cons] at h
    have hel := h.1 el rfl
    refine writes_temp.bind fun t _ => ?_
    split
    next value target hsplit =>
      have hall : (S.Part it → S.Part value) ∧ S.FitsOption target := by
        split at hsplit
        . next hrest =>
          cases hsplit
          exact ⟨fun hit => by simp +decide [hit], hel.argument (eq_of_beq hrest) rfl⟩
        . cases hsplit
          exact ⟨fun hit => by simp +decide [hit], hel.some⟩
      refine (hE.destructureOption _ _ hall.2).bindOf (fun h => h.2.part) fun e _ => ?_
      refine (ih h.2).bindOf (fun h => h.1.1) fun es _ => ?_
      refine .pure ?_
      rintro ⟨⟨⟨hit, ht⟩, he⟩, hes⟩
      simp [hall.1 hit, he.part, hes, ht.part, ht.targets]

theorem Sound.arrayPattern (hE : Sound S E) (v : C.Expr) (mode : TargetUse) (h : S.Fits n) :
    Writes S (S.Part v) (arrayPattern E n v mode) S.Tail := by
  unfold Lower.arrayPattern
  refine writes_tempIterator.bind fun it _ => ?_
  refine (hE.patternElements it mode h.slot).bindOf (fun h => h.2.part) fun list _ => ?_
  refine .pure ?_
  rintro ⟨⟨hv, hit⟩, hlist⟩
  refine tail_comma_of_two [] list [] rfl rfl ?_
  simp +decide [hv, hlist.steps, hit.part]

theorem Sound.keyInPattern (hE : Sound S E) (h : S.Fits n) : Writes S pre (keyInPattern E n)
    fun r => S.Parts r.1 ∧ S.Part r.2 := by
  have hrest (key : C.Expr) : Writes S (pre ∧ S.Part key) (if key.isConstant then return ([], key)
      else do
        let k ← temp
        return ([.set k (.callEnv Engine.toPropertyKey [key])], k))
      fun r => S.Parts r.1 ∧ S.Part r.2 := by
    split
    . exact .pure fun h => ⟨trivial, h.2⟩
    . refine writes_temp.bind fun t _ => ?_
      exact .pure fun h => by simp +decide [h.1.2, h.2.part, h.2.targets]
  unfold Lower.keyInPattern
  dsimp only
  split
  . refine (hE.expr (h.part? _ rfl)).bind fun key _ => ?_
    exact (hrest key).mono (fun h => ⟨h.1, h.2.1⟩) fun _ => id
  . refine (yields_keySlot _ _).andThen fun key hkey => ?_
    exact (hrest key).mono (fun h => ⟨h, hkey.code.1⟩) fun _ => id

theorem Sound.patternProperties (hE : Sound S E) (src : C.Expr) (mode : TargetUse)
    {keys : List C.Expr} {list : List Node} (h : ∀ c ∈ list, S.Fits c) :
    Writes S (S.Part src ∧ S.Parts keys) (patternProperties E src mode keys list) S.Parts := by
  fun_induction Lower.patternProperties E src mode keys list with
  | case1 => exact .pure fun _ => trivial
  | case2 keys p rest hrest ih =>
    rw [List.forall_mem_cons] at h
    refine writes_temp.bind fun t _ => ?_
    refine (hE.destructureOption _ _ (h.1.argument (eq_of_beq hrest) rfl)).bindOf
      (fun h => h.2.part)
      fun e _ => ?_
    refine (ih h.2).bindOf (fun h => h.1.1) fun es _ => ?_
    refine .pure ?_
    rintro ⟨⟨⟨⟨hsrc, hkeys⟩, ht⟩, he⟩, hes⟩
    simp +decide [hsrc, hkeys, he.part, hes, ht.part, ht.targets]
  | case3 keys p rest hrest ih =>
    rw [List.forall_mem_cons] at h
    refine (hE.keyInPattern h.1).bind fun r _ => ?_
    refine writes_temp.bind fun t _ => ?_
    refine (hE.destructureOption _ _ (h.1.part? _ rfl)).bindOf (fun h => h.2.part) fun e _ => ?_
    refine (ih _ h.2).bindOf (fun h => ?_) fun es _ => ?_
    . exact ⟨h.1.1.1.1, by simp [h.1.1.1.2, h.1.1.2.2]⟩
    refine .pure ?_
    rintro ⟨⟨⟨⟨⟨hsrc, hkeys⟩, hr⟩, ht⟩, he⟩, hes⟩
    simp +decide [hsrc, hr.1, hr.2, he.part, hes, ht.part, ht.targets]

theorem Sound.objectPattern (hE : Sound S E) (v : C.Expr) (mode : TargetUse) (h : S.Fits n) :
    Writes S (S.Part v) (objectPattern E n v mode) (S.Stores v) := by
  unfold Lower.objectPattern
  refine writes_temp.bind ?_
  rintro _ ⟨i, rfl⟩
  refine (hE.patternProperties _ mode h.item).bindOf (fun h => ⟨h.2.part, trivial⟩) fun list _ => ?_
  refine .pure ?_
  rintro ⟨⟨hv, ht⟩, hlist⟩
  have hset : S.Part (.set (.var (temporaryName "tmp" i)) (.callEnv Engine.requireObject [v])) := by
    simp +decide [hv, ht.var]
  refine ⟨Setting.part_comma ?_ fun _ => ⟨_, List.mem_cons_self, hset⟩, fun _ => ?_, fun _ => ?_⟩
  . exact C.Expr.steps_cons.2 ⟨hset.step, hlist.steps⟩
  . exact C.Expr.isSolid_comma_first rfl
  . exact C.Expr.isCalm_comma_first rfl rfl

theorem Sound.destructureOf (hE : Sound S E) (v : C.Expr) (mode : TargetUse) (h : S.Fits n) :
    Writes S (S.Part v) (destructureOf E n v mode) (S.Stores v) := by
  unfold Lower.destructureOf
  have hput : Writes S (S.Part v) (do
      let r ← Lower.reference E (some n) n mode
      return .comma (r.1 ++ [← r.2.set v])) (S.Stores v) := by
    refine (hE.reference h.some).bind fun r hr => ?_
    refine (writes_set hr.1 v).bindOf (fun h => ⟨h.2.2, h.1⟩) fun e _ => ?_
    refine .pure ?_
    rintro ⟨⟨_, hpre⟩, he⟩
    exact (stores_comma hpre.1.steps hr.2 he).1
  split
  . exact hput
  . exact hput
  . exact (hE.bindDefault v mode h).mono id fun _ h => h.stores
  . exact (hE.arrayPattern v mode h).mono id fun _ h => h.stores
  . exact hE.objectPattern v mode h
  . exact .fail (by simp)

end ScriptC.Lower

import ScriptC.Proofs.Function.Order

/-!
Counting where the nodes of a script go when it is taken apart: to what is left of the tree, to the
functions that are added, or to neither, which is so for directives that are used up and for what
stands around the constructor of a class.
-/

namespace ScriptC

open Pass

namespace Part

variable {h : Node → List Node} {x : Nat} {l k : List Part} {r : Role} {n : Node}

def tally (h : Node → List Node) (x : Nat) (l : List Part) : Nat :=
  (((nodes l).flatMap h).map (·.id)).count x

@[simp]
theorem tally_nil : tally h x [] = 0 := rfl

@[simp]
theorem tally_append : tally h x (l ++ k) = tally h x l + tally h x k := by
  simp [tally]

@[simp]
theorem tally_hole : tally h x (.hole r :: l) = tally h x l := rfl

theorem tally_node : tally h x (.node r n :: l) =
    ((h n).map (·.id)).count x + tally h x n.parts + tally h x l := by
  rw [tally, nodes_node, Node.preorder_eq, List.flatMap_append, List.flatMap_cons, List.map_append,
    List.map_append, List.count_append, List.count_append]
  rfl

theorem times_eq_tally : times x l = tally (fun n => [n]) x l := by
  rw [times, tally, List.flatMap_singleton']

theorem tally_of_perm (hperm : (nodes l).Perm (nodes k)) : tally h x l = tally h x k :=
  ((hperm.flatMap_right h).map _).count_eq x

theorem times_of_perm (hperm : (nodes l).Perm (nodes k)) : times x l = times x k :=
  (hperm.map _).count_eq x

theorem tally_eq_zero (hnone : ∀ m ∈ nodes l, h m = []) : tally h x l = 0 := by
  rw [tally, List.flatMap_eq_nil_iff.2 hnone]
  rfl

theorem perm_nodes (hperm : l.Perm k) : (nodes l).Perm (nodes k) := hperm.flatMap_right _

end Part

namespace Node

variable {n c : Node} {r : Role}

theorem perm_partsAt (roles : List Role) (hnodup : roles.Nodup)
    (hroles : ∀ p ∈ n.parts, p.role ∈ roles) :
    n.parts.Perm (roles.flatMap (Extract.partsAt n)) := by
  unfold Extract.partsAt
  generalize n.parts = parts at hroles
  induction roles generalizing parts with
  | nil =>
    cases parts with
    | nil => exact .refl _
    | cons p rest => cases hroles p List.mem_cons_self
  | cons r roles ih =>
    rw [List.nodup_cons] at hnodup
    have hrest := ih hnodup.2 (parts.filter fun p => !(p.role == r)) fun p hp => by
      rw [List.mem_filter] at hp
      simpa using (List.mem_cons.1 (hroles p hp.1)).resolve_left (by simpa using hp.2)
    have hfilters : (roles.flatMap fun t =>
        (parts.filter fun p => !(p.role == r)).filter fun p => p.role == t) =
        roles.flatMap fun t => parts.filter fun p => p.role == t := by
      refine congrArg List.flatten (List.map_congr_left fun t ht => ?_)
      rw [List.filter_filter]
      refine List.filter_congr fun p _ => ?_
      by_cases hp : p.role = t
      . have hne : t ≠ r := fun heq => hnodup.1 (heq ▸ ht)
        simp [hp, hne]
      . simp [hp]
    rw [hfilters] at hrest
    exact (List.filter_append_perm (fun p : Part => p.role == r) parts).symm.trans
      (hrest.append_left _)

def IsSingle (n : Node) (r : Role) : Prop := (n.parts.filter fun p => p.role == r).length ≤ 1

theorem nodes_partsAt_single (h : n.IsSingle r) :
    Part.nodes (Extract.partsAt n r) = Part.nodes ((n.part? r).map (Part.node r)).toList := by
  cases hpart : n.part? r with
  | some c =>
    have hc := exists_of_part? hpart
    unfold IsSingle at h
    unfold Extract.partsAt at hc ⊢
    generalize (n.parts.filter fun p => p.role == r) = l at h hc
    cases l with
    | nil => cases hc
    | cons p rest =>
      obtain rfl : rest = [] := List.eq_nil_of_length_eq_zero (by simpa using h)
      rw [List.mem_singleton] at hc
      rw [← hc]
      rfl
  | none =>
    have hholes : ∀ p ∈ Extract.partsAt n r, p.node? = none := by
      intro p hp
      obtain ⟨hp, hrole⟩ := List.mem_filter.1 hp
      have := List.findSome?_eq_none_iff.1 hpart p hp
      rwa [if_pos hrole] at this
    exact List.flatMap_eq_nil_iff.2 fun p hp => by rw [hholes p hp]; rfl

def directive? (n : Node) : Option Node :=
  if n.functionMarks.exprBody then none
  else (n.part? .body).bind fun b => (Extract.prologue b.parts).find? Extract.isUseStrict

def members (n : Node) : List Node := ((n.part? .body).getD default).items

def isConstructor (n : Node) : Bool := n.memberMarks.kind == .constructor

/--
The nodes that no function gets when a node is taken apart: of a function its directive, and of a
class the definition of its constructor with the key and the node of the function.
-/
def dropped (n : Node) : List Node :=
  if n.kind.isFunction then n.directive?.elim [] preorder
  else if n.kind.isClass then
    (n.members.find? isConstructor).elim [] fun m =>
      m :: ((m.part? .key).elim [] preorder ++ (m.part? .value).toList)
  else []

def memberValues (n : Node) : List Node :=
  if n.kind.isClass then (n.members.filter fun m => !m.isConstructor).filterMap (·.part? .value)
  else []

structure IsTidy (n : Node) : Prop where
  single : ∀ r, r ≠ .item → r ≠ .param → n.IsSingle r
  key : n.isConstructor = true → ∀ c, n.part? .key = some c → c.parts = []
  unnamed : n.kind = .methodDefinition → ∀ c, n.part? .value = some c → c.part? .name = none

end Node

def Kind.isSite (k : Kind) : Bool := k.isFunction || k.isClass

theorem Kind.isBare_of_isSite {k : Kind} (h : k.isSite = true) : k.isBare = true := by
  cases k <;> first | rfl | cases h

def Node.standing (n : Node) : List Node := if n.kind.isSite then [n] else []

def Node.IsDetached (n : Node) : Prop :=
  (n.kind.isFunction = true → ∀ p ∈ n.parts, p.role ≠ .param ∧ p.role ≠ .body) ∧
    (n.kind.isClass = true → ∀ m ∈ n.members, m.isConstructor = false)

namespace Extract

theorem perm_stripDirective (parts : List Part) : (Part.nodes parts).Perm
    (((prologue parts).find? isUseStrict).elim [] Node.preorder ++
      Part.nodes (stripDirective parts).1) := by
  induction parts with
  | nil => exact .refl _
  | cons p rest ih =>
    cases p with
    | hole r => exact .refl _
    | node r n =>
      rw [stripDirective, prologue]
      cases hd : isDirective n with
      | false => exact .refl _
      | true =>
        cases hu : isUseStrict n with
        | true => simp [hu]
        | false =>
          simp only [Bool.not_true, Bool.false_eq_true, if_false, if_true, List.find?_cons, hu]
          rw [Part.nodes_node, Part.nodes_node]
          refine (ih.append_left _).trans ?_
          rw [← List.append_assoc, ← List.append_assoc]
          exact List.perm_append_comm.append_right _

structure Same (n m : Node) : Prop where
  id : n.id = m.id
  span : n.span = m.span
  label : n.label = m.label

def siteId (f : Function) : Option Nat := f.site.map (·.id)

def added {α : Type} (get : Function → α) (s s' : Extraction) : List α :=
  (s'.functions.toList.map get).drop s.functions.size

/--
A node that is left: it is new or was given, if it stands for a function then that is moved out
and can be found, and it lacks nothing that the nodes had which were given.
-/
structure Fair (bound : Nat) (given : List Part) (s : Extraction) (m : Node) : Prop where
  origin : bound ≤ m.id ∨ ∃ n ∈ Part.nodes given, Same n m
  site : m.kind.isSite = true → m.IsDetached ∧ (s.sites.get? m.id).isSome = true
  complete : (∀ n ∈ Part.nodes given, n.IsComplete) → m.IsComplete

def Stems (given : List Part) (members : List Nat) (s : Extraction) (c : Nat) (f : Function) :
    Prop :=
  ∃ site p g n, f.site = some site ∧ f.parent = some p ∧ s.functions[p]? = some g ∧
    n ∈ Part.nodes given ∧ n.kind.isSite = true ∧ Same n site ∧ f.isConstructor = n.kind.isClass ∧
    f.isStrict = (g.isStrict || f.isConstructor || decide (c ∈ members) ||
      (n.kind.isFunction && n.isStrictBody))

/--
Going on moves the nodes of some parts to what is left of them and to new functions, all but those
that are lost. `members` tells how often a number is that of a member of a class.
-/
structure Moves (bound : Nat) (lost members : Nat → Nat) (given left : List Part)
    (s s' : Extraction) : Prop where
  node : s.counters.node ≤ s'.counters.node
  size : s.functions.size ≤ s'.functions.size
  kept : ∀ (i : Nat) (f : Function), s.functions[i]? = some f →
    ∃ children, s'.functions[i]? = some { f with children }
  sites : ∀ id, (s.sites.get? id).isSome = true → (s'.sites.get? id).isSome = true
  exact : ∀ x, x < bound →
    Part.times x left + Part.times x (made s s') + lost x = Part.times x given
  births : ∀ x, (added siteId s s').count (some x) ≤ Part.tally Node.standing x given
  fair : ∀ m ∈ Part.nodes left, Fair bound given s' m
  root : ∀ (c : Nat) (f : Function), s.functions.size ≤ c → s'.functions[c]? = some f →
    bound ≤ f.node.id
  inner : ∀ (c : Nat) (f : Function), s.functions.size ≤ c → s'.functions[c]? = some f →
    ∀ m ∈ Part.nodes f.node.parts, Fair bound given s' m
  stems : ∃ ms : List Nat, (∀ c ∈ ms, s.functions.size ≤ c ∧ c < s'.functions.size) ∧
    (∀ x, (ms.map fun c => s'.functions[c]?.bind siteId).count (some x) = members x) ∧
    ∀ (c : Nat) (f : Function), s.functions.size ≤ c → s'.functions[c]? = some f →
      Stems given ms s' c f

variable {bound : Nat} {lost lost' members members' : Nat → Nat}
  {given left given' left' : List Part} {s t s' : Extraction}

theorem Same.refl (n : Node) : Same n n := ⟨rfl, rfl, rfl⟩

theorem Same.trans {n m o : Node} (h : Same n m) (h' : Same m o) : Same n o :=
  ⟨h.id.trans h'.id, h.span.trans h'.span, h.label.trans h'.label⟩

theorem Fair.mono {m : Node} (h : Fair bound given s m)
    (hsites : ∀ id, (s.sites.get? id).isSome = true → (s'.sites.get? id).isSome = true) :
    Fair bound given s' m :=
  ⟨h.origin, fun hm => ⟨(h.site hm).1, hsites _ (h.site hm).2⟩, h.complete⟩

structure SameRecord (f f' : Function) : Prop where
  site : f'.site = f.site
  parent : f'.parent = f.parent
  isConstructor : f'.isConstructor = f.isConstructor
  isStrict : f'.isStrict = f.isStrict

theorem SameRecord.refl (f : Function) : SameRecord f f := ⟨rfl, rfl, rfl, rfl⟩

def Covers (bound : Nat) (given given' : List Part) : Prop :=
  ∀ n ∈ Part.nodes given, n ∈ Part.nodes given' ∨ (n.kind.isFunction = false ∧ n.IsComplete) ∧
    (n.kind.isSite = false ∧ bound ≤ n.id ∨ ∃ n' ∈ Part.nodes given', Same n' n)

theorem covers_of_subset (bound : Nat) (h : Part.nodes given ⊆ Part.nodes given') :
    Covers bound given given' :=
  fun _ hn => .inl (h hn)

theorem Fair.of_covers {m : Node} (h : Fair bound given s m) (hcovers : Covers bound given given') :
    Fair bound given' s m := by
  refine ⟨?_, h.site, fun hgiven => h.complete fun n hn => ?_⟩
  . rcases h.origin with hid | ⟨n, hn, hsame⟩
    . exact .inl hid
    . rcases hcovers n hn with hn | ⟨-, ⟨-, hid⟩ | ⟨n', hn', hsame'⟩⟩
      . exact .inr ⟨n, hn, hsame⟩
      . exact .inl (hsame.id ▸ hid)
      . exact .inr ⟨n', hn', hsame'.trans hsame⟩
  . rcases hcovers n hn with hn | ⟨⟨-, hcomplete⟩, -⟩
    . exact hgiven n hn
    . exact hcomplete

theorem Stems.mono {ms ms' : List Nat} {c : Nat} {f f' : Function} (h : Stems given ms s c f)
    (hkept : ∀ (i : Nat) (f : Function), s.functions[i]? = some f →
      ∃ f', s'.functions[i]? = some f' ∧ f'.isStrict = f.isStrict)
    (hcovers : Covers bound given given') (hms : c ∈ ms ↔ c ∈ ms') (hf : SameRecord f f') :
    Stems given' ms' s' c f' := by
  obtain ⟨site, p, g, n, hsite, hp, hg, hn, hkind, hsame, hconstructor, hstrict⟩ := h
  obtain ⟨g', hg', hgs⟩ := hkept p g hg
  rw [← hf.site] at hsite
  rw [← hf.parent] at hp
  rw [← hf.isConstructor] at hconstructor hstrict
  rw [← hf.isStrict, ← hgs] at hstrict
  simp only [hms] at hstrict
  rcases hcovers n hn with hn' | ⟨⟨hfunction, -⟩, ⟨hno, -⟩ | ⟨n', hn', hsame'⟩⟩
  . exact ⟨site, p, g', n, hsite, hp, hg', hn', hkind, hsame, hconstructor, hstrict⟩
  . rw [hkind] at hno
    cases hno
  . have hkind' : n'.kind = n.kind := congrArg Label.kind hsame'.label
    refine ⟨site, p, g', n', hsite, hp, hg', hn', hkind' ▸ hkind, hsame'.trans hsame,
      hkind' ▸ hconstructor, ?_⟩
    simpa [hkind', hfunction] using hstrict

theorem map_take_of_kept {α : Type} {get : Function → α}
    (hget : ∀ f children, get { f with children } = get f)
    (hkept : ∀ (i : Nat) (f : Function), s.functions[i]? = some f →
      ∃ children, s'.functions[i]? = some { f with children }) :
    (s'.functions.toList.map get).take s.functions.size = s.functions.toList.map get := by
  apply List.ext_getElem?
  intro i
  rw [List.getElem?_take, List.getElem?_map, List.getElem?_map, Array.getElem?_toList,
    Array.getElem?_toList]
  by_cases hi : i < s.functions.size
  . obtain ⟨f, hf⟩ : ∃ f, s.functions[i]? = some f := ⟨_, Array.getElem?_eq_getElem hi⟩
    obtain ⟨children, hf'⟩ := hkept i f hf
    rw [if_pos hi, hf, hf', Option.map_some, Option.map_some, hget]
  . rw [if_neg hi, Array.getElem?_eq_none (by omega)]
    rfl

theorem added_trans {α : Type} {get : Function → α}
    (hget : ∀ f children, get { f with children } = get f)
    (hsize : s.functions.size ≤ t.functions.size)
    (hkept : ∀ (i : Nat) (f : Function), t.functions[i]? = some f →
      ∃ children, s'.functions[i]? = some { f with children }) :
    added get s s' = added get s t ++ added get t s' := by
  unfold added
  rw [← map_take_of_kept hget hkept, List.drop_take]
  have hdrop : t.functions.size = s.functions.size + (t.functions.size - s.functions.size) := by
    omega
  conv => rhs; rhs; rw [hdrop, ← List.drop_drop]
  exact (List.take_append_drop _ _).symm

theorem getElem?_added {α : Type} (get : Function → α) (s s' : Extraction) (i : Nat) :
    (added get s s')[i]? = s'.functions[s.functions.size + i]?.map get := by
  rw [added, List.getElem?_drop, List.getElem?_map, Array.getElem?_toList]

theorem added_cons {α : Type} (get : Function → α) {f : Function} {u : Extraction}
    (hsize : t.functions.size = s.functions.size + 1)
    (hget : s'.functions[s.functions.size]? = some f)
    (hrest : ∀ i, s.functions.size < i → s'.functions[i]? = u.functions[i]?) :
    added get s s' = get f :: added get t u := by
  apply List.ext_getElem?
  intro i
  rw [getElem?_added]
  cases i with
  | zero => rw [Nat.add_zero, hget, Option.map_some, List.getElem?_cons_zero]
  | succ i =>
    rw [hrest _ (by omega), List.getElem?_cons_succ, getElem?_added, hsize, Nat.add_assoc,
      Nat.add_comm 1 i]

theorem made_eq_added (s s' : Extraction) :
    made s s' = (added (·.node) s s').map (Part.node .body) := by
  unfold made added
  rw [← List.map_drop, List.map_map]
  rfl

namespace Moves

theorem refl (hfair : ∀ m ∈ Part.nodes left, Fair bound left s m) :
    Moves bound (fun _ => 0) (fun _ => 0) left left s s := by
  have hnone : ∀ (c : Nat) (f : Function), s.functions.size ≤ c → s.functions[c]? ≠ some f := by
    intro c f hc hf
    rw [Array.getElem?_eq_none hc] at hf
    cases hf
  have hadded : added siteId s s = [] := List.drop_eq_nil_of_le (by simp)
  have hmade : made s s = [] := by
    rw [made_eq_added, added, List.drop_eq_nil_of_le (by simp)]
    rfl
  refine ⟨Nat.le_refl _, Nat.le_refl _, fun i f h => ⟨_, h⟩, fun _ => id, ?_, ?_, hfair,
    fun c f hc hf => absurd hf (hnone c f hc), fun c f hc hf =>
      absurd hf (hnone c f hc), [], ?_, ?_,
    fun c f hc hf => absurd hf (hnone c f hc)⟩
  . intro x _
    rw [hmade]
    rfl
  . intro x
    rw [hadded]
    exact Nat.zero_le _
  . intro c hc
    cases hc
  . exact fun _ => rfl

theorem trans (h : Moves bound lost members given left s t)
    (h' : Moves bound lost' members' given' left' t s') :
    Moves bound (fun x => lost x + lost' x) (fun x => members x + members' x) (given ++ given')
      (left ++ left') s s' := by
  have hsize := h.size
  have hsize' := h'.size
  have hnode := h.node
  have hnode' := h'.node
  have hback : ∀ (i : Nat) (f : Function), i < t.functions.size → s'.functions[i]? = some f →
      ∃ g children, t.functions[i]? = some g ∧ f = { g with children } := by
    intro i f hi hf
    obtain ⟨g, hg⟩ : ∃ g, t.functions[i]? = some g := ⟨_, Array.getElem?_eq_getElem hi⟩
    obtain ⟨children, hg'⟩ := h'.kept i g hg
    rw [hg'] at hf
    exact ⟨g, children, hg, (Option.some.inj hf).symm⟩
  have hleft : ∀ m, Fair bound given t m → Fair bound (given ++ given') s' m := fun m hm =>
    (hm.mono h'.sites).of_covers
      (covers_of_subset bound (by rw [Part.nodes_append]; exact List.subset_append_left _ _))
  have hright : ∀ m, Fair bound given' s' m → Fair bound (given ++ given') s' m := fun m hm =>
    hm.of_covers
      (covers_of_subset bound (by rw [Part.nodes_append]; exact List.subset_append_right _ _))
  refine ⟨by omega, by omega, ?_, fun id hid => h'.sites id (h.sites id hid), ?_, ?_,
    ?_, ?_, ?_, ?_⟩
  . intro i f hf
    obtain ⟨_, hf⟩ := h.kept i f hf
    obtain ⟨_, hf⟩ := h'.kept i _ hf
    exact ⟨_, hf⟩
  . intro x hlt
    have hx := h.exact x hlt
    have hx' := h'.exact x hlt
    have hmade : made s s' = made s t ++ made t s' := by
      rw [made_eq_added, made_eq_added, made_eq_added,
        added_trans (fun _ _ => rfl) hsize h'.kept, List.map_append]
    rw [hmade, Part.times_append, Part.times_append, Part.times_append]
    omega
  . intro x
    have hx := h.births x
    have hx' := h'.births x
    rw [added_trans (fun _ _ => rfl) hsize h'.kept, List.count_append, Part.tally_append]
    omega
  . intro m hm
    rw [Part.nodes_append] at hm
    rcases List.mem_append.1 hm with hm | hm
    . exact hleft m (h.fair m hm)
    . exact hright m (h'.fair m hm)
  . intro c f hc hf
    by_cases hct : c < t.functions.size
    . obtain ⟨g, _, hg, rfl⟩ := hback c f hct hf
      exact h.root c g hc hg
    . exact h'.root c f (by omega) hf
  . intro c f hc hf m hm
    by_cases hct : c < t.functions.size
    . obtain ⟨g, _, hg, rfl⟩ := hback c f hct hf
      exact hleft m (h.inner c g hc hg m hm)
    . exact hright m (h'.inner c f (by omega) hf m hm)
  . obtain ⟨ms, hms, hcount, hstems⟩ := h.stems
    obtain ⟨ms', hms', hcount', hstems'⟩ := h'.stems
    refine ⟨ms ++ ms', ?_, ?_, ?_⟩
    . intro c hc
      rcases List.mem_append.1 hc with hc | hc
      . have := hms c hc
        omega
      . have := hms' c hc
        omega
    . intro x
      have hold : (ms.map fun c => s'.functions[c]?.bind siteId) =
          ms.map fun c => t.functions[c]?.bind siteId := by
        refine List.map_congr_left fun c hc => ?_
        obtain ⟨g, hg⟩ : ∃ g, t.functions[c]? = some g :=
          ⟨_, Array.getElem?_eq_getElem (hms c hc).2⟩
        obtain ⟨_, hg'⟩ := h'.kept c g hg
        rw [hg, hg']
        rfl
      rw [List.map_append, List.count_append, hcount', hold, hcount]
    . intro c f hc hf
      by_cases hct : c < t.functions.size
      . obtain ⟨g, children, hg, rfl⟩ := hback c f hct hf
        refine (hstems c g hc hg).mono (fun i f hf => ?_) (covers_of_subset bound ?_) ?_
          ⟨rfl, rfl, rfl, rfl⟩
        . obtain ⟨_, hf'⟩ := h'.kept i f hf
          exact ⟨_, hf', rfl⟩
        . rw [Part.nodes_append]
          exact List.subset_append_left _ _
        . have hno : c ∉ ms' := fun hm => by
            have := hms' c hm
            omega
          simp [hno]
      . refine (hstems' c f (by omega) hf).mono (fun i f hf => ⟨f, hf, rfl⟩)
          (covers_of_subset bound ?_) ?_ (.refl f)
        . rw [Part.nodes_append]
          exact List.subset_append_right _ _
        . have hno : c ∉ ms := fun hm => hct (hms c hm).2
          simp [hno]

theorem balance (h : Moves bound lost members given left s s')
    (hexact : ∀ x, x < bound → Part.times x left' + Part.times x given + lost' x =
      Part.times x given' + Part.times x left + lost x)
    (hmembers : ∀ x, members' x = members x)
    (hgiven : ∀ x, Part.tally Node.standing x given ≤ Part.tally Node.standing x given')
    (hcovers : Covers bound given given')
    (hleft : ∀ m ∈ Part.nodes left', m ∈ Part.nodes left ∨ Fair bound given' s' m) :
    Moves bound lost' members' given' left' s s' := by
  have hfair : ∀ m, Fair bound given s' m → Fair bound given' s' m :=
    fun m hm => hm.of_covers hcovers
  refine ⟨h.node, h.size, h.kept, h.sites, ?_, fun x => Nat.le_trans (h.births x)
    (hgiven x), ?_, h.root,
    fun c f hc hf m hm => hfair m (h.inner c f hc hf m hm), ?_⟩
  . intro x hlt
    have hx := h.exact x hlt
    have hx' := hexact x hlt
    omega
  . intro m hm
    rcases hleft m hm with hm | hm
    . exact hfair m (h.fair m hm)
    . exact hm
  . obtain ⟨ms, hms, hcount, hstems⟩ := h.stems
    refine ⟨ms, hms, fun x => (hcount x).trans (hmembers x).symm, fun c f hc hf => ?_⟩
    exact (hstems c f hc hf).mono (fun i f hf => ⟨f, hf, rfl⟩) hcovers .rfl (.refl f)

end Moves

def Shifts (bound : Nat) (given left : List Part) (s s' : Extraction) : Prop :=
  Moves bound (fun x => Part.tally Node.dropped x given)
    (fun x => Part.tally Node.memberValues x given) given left s s'

theorem Shifts.trans (h : Shifts bound given left s t) (h' : Shifts bound given' left' t s') :
    Shifts bound (given ++ given') (left ++ left') s s' := by
  unfold Shifts at *
  simp only [Part.tally_append]
  exact Moves.trans h h'

theorem shifts_nil : Shifts bound [] [] s s := .refl (fun _ hm => by cases hm)
end Extract
end ScriptC

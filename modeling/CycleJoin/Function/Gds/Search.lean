import CycleJoin.Function.Gds.PathsOutputWriter

/-!
# What the search over parent lists writes

The loops of `dfsFast` and `dfsSlow` with any checks write the paths of a recursive enumeration
(`explore`): at each position the search takes the first parent of the iteration before that passes the
append check, then the ones after it that pass the replace check (`candidates`).

* `Reaches`: a state comes to another after some rounds of the loop.
* `reaches_list`, `reaches_afterTop`: all paths over the top of the stack are written, then the top is
  replaced by the next parent or popped.
-/

namespace CycleJoin

open List

variable {V E : Type} {info : PathsOutputWriterInfo V} {slow : Bool}
  {append replace : List (ParentEntry V E) → ParentEntry V E → Bool} {parents : V → ParentList V E}

/-! ## The enumeration -/

/-- The parents that the search tries at a position: the first of an iteration that passes `append`, and
those after it that pass `replace`. -/
def candidates (append replace : List (ParentEntry V E) → ParentEntry V E → Bool)
    (path : List (ParentEntry V E)) (iter : Nat) (list : ParentList V E) : List (ParentEntry V E) :=
  match list.dropWhile fun parent => !(parent.iter = iter && append path parent) with
  | [] => []
  | first :: rest => first :: (rest.takeWhile (·.iter = iter)).filter (replace path)

/-- The paths that extend a path by `k` parents, from the parents of `node` on. -/
def explore (append replace : List (ParentEntry V E) → ParentEntry V E → Bool)
    (parents : V → ParentList V E) : Nat → List (ParentEntry V E) → V → List (List (ParentEntry V E))
  | 0, path, _ => [path]
  | k + 1, path, node => (candidates append replace path (k + 1) (parents node)).flatMap fun parent =>
      explore append replace parents k (path ++ [parent]) parent.node

/-! ## Rounds of the loop -/

section Loop

variable {step : DfsState V E → Option (DfsState V E)} {s s' s'' : DfsState V E}

/-- The loop comes from `s` to `s'`. -/
def Reaches (step : DfsState V E → Option (DfsState V E)) (s s' : DfsState V E) : Prop :=
  ∃ rounds, ∀ fuel, dfsLoop step (rounds + fuel) s = dfsLoop step fuel s'

theorem Reaches.refl (s : DfsState V E) : Reaches step s s := ⟨0, fun fuel => by rw [zero_add]⟩

theorem Reaches.trans (h : Reaches step s s') (h' : Reaches step s' s'') : Reaches step s s'' := by
  obtain ⟨n, hn⟩ := h
  obtain ⟨m, hm⟩ := h'
  exact ⟨n + m, fun fuel => by rw [add_assoc, hn, hm]⟩

theorem Reaches.of_step (hs : s.stack ≠ []) (h : step s = some s') : Reaches step s s' := by
  refine ⟨1, fun fuel => ?_⟩
  have hne : s.stack.isEmpty = false := by simpa using hs
  rw [add_comm, dfsLoop, hne, h]
  rfl

theorem Reaches.dfsLoop_eq {out : List (List (ParentEntry V E))} {backtracking : Bool}
    (h : Reaches step s ⟨[], backtracking, out⟩) :
    ∃ rounds, ∀ fuel, rounds ≤ fuel → dfsLoop step fuel s = some out := by
  obtain ⟨n, hn⟩ := h
  refine ⟨n, fun fuel hle => ?_⟩
  rw [← Nat.add_sub_cancel' hle, hn]
  unfold dfsLoop
  rfl

end Loop

/-! ## The top of the stack -/

@[simp]
theorem pathElements_cons (top : ParentEntry V E) (next : ParentList V E) (rest : List (ParentList V E)) :
    pathElements ((top :: next) :: rest) = pathElements rest ++ [top] := by
  simp [pathElements]

section
variable (info : PathsOutputWriterInfo V) (check : ParentEntry V E → Bool)

/-- What replaces the top is the first of the viable parents that pass the check. -/
theorem replaceTop_cases (size : Nat) (top : ParentEntry V E) (list : ParentList V E) :
    (replaceTop info check size top list = [] ∧ (list.takeWhile (info.isNextViable · size top)).filter check = []) ∨
      ∃ next rest, replaceTop info check size top list = next :: rest ∧
        info.isNextViable next size top = true ∧ (∃ skipped, list = skipped ++ next :: rest) ∧
        (list.takeWhile (info.isNextViable · size top)).filter check =
          next :: (rest.takeWhile (info.isNextViable · size top)).filter check := by
  induction list with
  | nil => exact .inl ⟨rfl, rfl⟩
  | cons next rest ih =>
    cases hviable : info.isNextViable next size top with
    | false => exact .inl ⟨by simp [replaceTop, hviable], by simp [hviable]⟩
    | true =>
      cases hcheck : check next with
      | true =>
        exact .inr ⟨next, rest, by simp [replaceTop, hviable, hcheck], hviable, ⟨[], rfl⟩, by simp [hviable, hcheck]⟩
      | false =>
        have hstep : replaceTop info check size top (next :: rest) = replaceTop info check size top rest := by
          simp [replaceTop, hviable, hcheck]
        have hfilter : ((next :: rest).takeWhile (info.isNextViable · size top)).filter check =
            (rest.takeWhile (info.isNextViable · size top)).filter check := by
          simp [hviable, hcheck]
        rw [hstep, hfilter]
        obtain h | ⟨next', rest', h, hv, ⟨skipped, hs⟩, hf⟩ := ih
        · exact .inl h
        · exact .inr ⟨next', rest', h, hv, ⟨next :: skipped, by rw [hs, cons_append]⟩, hf⟩

/-- The state after a round that backtracks from the top. -/
def afterTop (top : ParentEntry V E) (next : ParentList V E) (rest : List (ParentList V E))
    (out : List (List (ParentEntry V E))) : DfsState V E :=
  match replaceTop info check (rest.length + 1) top next with
  | [] => ⟨rest, true, out⟩
  | next :: list => ⟨(next :: list) :: rest, false, out⟩

end

section Reach

variable {check : List (ParentEntry V E) → ParentEntry V E → Bool}

/-- The replace check does not read the top. -/
def IgnoresTop (check replace : List (ParentEntry V E) → ParentEntry V E → Bool) : Prop :=
  ∀ path top, check (path ++ [top]) = replace path

section
variable (hcheck : IgnoresTop check replace) {top : ParentEntry V E} {next : ParentList V E}
  {rest : List (ParentList V E)} {out : List (List (ParentEntry V E))}
include hcheck

theorem dfsStep_backtracking (hiter : top.iter ≠ 1) :
    dfsStep info slow append check parents ⟨(top :: next) :: rest, true, out⟩ =
      some (afterTop info (replace (pathElements rest)) top next rest out) := by
  simp only [dfsStep, afterTop, hiter, pathElements_cons, hcheck _ _]
  cases replaceTop info (replace (pathElements rest)) (rest.length + 1) top next <;> rfl

theorem dfsStep_write {backtracking : Bool} (hiter : top.iter = 1) :
    dfsStep info slow append check parents ⟨(top :: next) :: rest, backtracking, out⟩ =
      some (afterTop info (replace (pathElements rest)) top next rest (out ++ [pathElements rest ++ [top]])) := by
  simp only [dfsStep, afterTop, hiter, decide_true, Bool.or_true, pathElements_cons, hcheck _ _]
  cases replaceTop info (replace (pathElements rest)) (rest.length + 1) top next <;> rfl

end

theorem dfsStep_forward {k : Nat} {top : ParentEntry V E} {next : ParentList V E}
    {rest : List (ParentList V E)} {out : List (List (ParentEntry V E))} (hiter : top.iter = k + 2) :
    dfsStep info slow append check parents ⟨(top :: next) :: rest, false, out⟩ =
      match (parents top.node).dropWhile fun parent =>
        !(parent.iter = k + 1 && append (pathElements rest ++ [top]) parent) with
      | [] => if slow then some ⟨(top :: next) :: rest, true, out⟩ else none
      | parent :: list => some ⟨(parent :: list) :: (top :: next) :: rest, false, out⟩ := by
  have hne : top.iter ≠ 1 := by omega
  have hpred : top.iter - 1 = k + 1 := by omega
  simp only [dfsStep, hne, if_false, Bool.false_or, decide_false, Bool.false_eq_true, pathElements_cons, hpred]
  split
  · next h => rw [h]
  · next h => cases hlist : (parents top.node).dropWhile fun parent =>
      !(parent.iter = k + 1 && append (pathElements rest ++ [top]) parent) with
    | nil => exact absurd hlist h
    | cons parent list => rfl

/-- If all paths over each top are written (`written`), the search goes through the list: the top and
the viable parents after it that pass the check. -/
theorem reaches_list {step : DfsState V E → Option (DfsState V E)} {rest : List (ParentList V E)}
    {written : ParentEntry V E → List (List (ParentEntry V E))} {viable : ParentEntry V E → Bool}
    {all : ParentList V E} (hviable : ∀ top, viable top = true →
      ∀ e, info.isNextViable e (rest.length + 1) top = viable e)
    (hone : ∀ top ∈ all, viable top = true → ∀ next out, Reaches step ⟨(top :: next) :: rest, false, out⟩
        (afterTop info (replace (pathElements rest)) top next rest (out ++ written top)))
    {top : ParentEntry V E} {next : ParentList V E} (hall : ∀ e ∈ top :: next, e ∈ all)
    (htop : viable top = true) (out : List (List (ParentEntry V E))) :
    Reaches step ⟨(top :: next) :: rest, false, out⟩ ⟨rest, true, out ++ (top :: (next.takeWhile viable).filter
        (replace (pathElements rest))).flatMap written⟩ := by
  obtain ⟨n, hn⟩ : ∃ n, next.length ≤ n := ⟨_, le_rfl⟩
  induction n generalizing top next out with
  | zero =>
    obtain rfl := eq_nil_of_length_eq_zero (Nat.le_zero.mp hn)
    simpa [afterTop, replaceTop] using hone top (hall top mem_cons_self) htop [] out
  | succ n ih =>
    refine (hone top (hall top mem_cons_self) htop next out).trans ?_
    have hcases := replaceTop_cases info (replace (pathElements rest)) (rest.length + 1) top next
    simp only [hviable top htop] at hcases
    obtain ⟨hnil, hfil⟩ | ⟨e, l, hcons, hv, ⟨skipped, hs⟩, hfil⟩ := hcases
    · simp only [afterTop, hnil, hfil, flatMap_cons, flatMap_nil, append_nil]
      exact .refl _
    · have hlen := congrArg List.length hs
      simp only [length_append, length_cons] at hlen
      have hall' : ∀ e' ∈ e :: l, e' ∈ all := fun e' he' =>
        hall e' (mem_cons_of_mem _ (hs ▸ mem_append_right _ he'))
      have hnext := ih hall' hv (out ++ written top) (by omega)
      simpa only [afterTop, hcons, hfil, flatMap_cons, append_assoc] using hnext

/-- What the lists must offer: `dfsFast` needs a parent to push wherever the path is not complete. -/
def CanAppend (slow : Bool) (append : List (ParentEntry V E) → ParentEntry V E → Bool)
    (parents : V → ParentList V E) : Prop :=
  slow = true ∨ ∀ node, ∀ entry ∈ parents node, 1 < entry.iter → ∀ path,
    ∃ parent ∈ parents entry.node, parent.iter = entry.iter - 1 ∧ append path parent = true

variable (happend : CanAppend slow append parents) (hcheck : IgnoresTop check replace)
include happend hcheck

/-- All paths over the top are written, then the top is replaced or popped. The induction is on the
hops that are missing. -/
theorem reaches_afterTop {k : Nat} {top : ParentEntry V E} {next : ParentList V E} {rest : List (ParentList V E)}
    {out : List (List (ParentEntry V E))} {node : V} (hmem : top ∈ parents node)
    (hiter : top.iter = k + 1) :
    Reaches (dfsStep info slow append check parents) ⟨(top :: next) :: rest, false, out⟩
      (afterTop info (replace (pathElements rest)) top next rest
        (out ++ explore append replace parents k (pathElements rest ++ [top]) top.node)) := by
  induction k generalizing top next rest out node with
  | zero => exact .of_step (by simp) (dfsStep_write hcheck hiter)
  | succ k ih =>
    have hne : top.iter ≠ 1 := by omega
    have hback : ∀ out, Reaches (dfsStep info slow append check parents) ⟨(top :: next) :: rest, true, out⟩
        (afterTop info (replace (pathElements rest)) top next rest out) :=
      fun out => .of_step (by simp) (dfsStep_backtracking hcheck hne)
    have hforward := @dfsStep_forward V E info slow append parents check k top next rest out hiter
    rw [explore, candidates]
    cases hdrop : (parents top.node).dropWhile fun parent =>
        !(parent.iter = k + 1 && append (pathElements rest ++ [top]) parent) with
    | nil =>
      rw [hdrop] at hforward
      have hslow : slow = true := by
        obtain hslow | hexists := happend
        · exact hslow
        · obtain ⟨parent, hp, hpi, hpa⟩ :=
            hexists node top hmem (by omega) (pathElements rest ++ [top])
          have := dropWhile_eq_nil_iff.mp hdrop parent hp
          simp [hpi, hpa, hiter] at this
      rw [hslow] at hforward
      rw [flatMap_nil, append_nil]
      rw [hslow] at hback ⊢
      exact (Reaches.of_step (by simp) hforward).trans (hback out)
    | cons parent list =>
      rw [hdrop] at hforward
      have hsub : ∀ e ∈ parent :: list, e ∈ parents top.node := fun e he =>
        (dropWhile_suffix _).subset (hdrop ▸ he)
      have hparent : parent.iter = k + 1 := by
        have hfind := find?_eq_head?_dropWhile_not (fun parent : ParentEntry V E =>
          parent.iter = k + 1 && append (pathElements rest ++ [top]) parent) (parents top.node)
        have hfirst := find?_some (hfind.trans (congrArg List.head? hdrop))
        simp only [Bool.and_eq_true, decide_eq_true_eq] at hfirst
        exact hfirst.1
      have hviable : ∀ t : ParentEntry V E, decide (t.iter = k + 1) = true → ∀ e,
          info.isNextViable e (((top :: next) :: rest).length + 1) t = decide (e.iter = k + 1) := by
        intro t ht e
        have ht : t.iter = k + 1 := by simpa using ht
        simp [PathsOutputWriterInfo.isNextViable, ht]
      have hone : ∀ t ∈ parents top.node, decide (t.iter = k + 1) = true → ∀ next' out,
          Reaches (dfsStep info slow append check parents) ⟨(t :: next') :: (top :: next) :: rest, false, out⟩
            (afterTop info (replace (pathElements ((top :: next) :: rest))) t next'
              ((top :: next) :: rest) (out ++ explore append replace parents k
                (pathElements ((top :: next) :: rest) ++ [t]) t.node)) :=
        fun t ht hti next' out => ih ht (by simpa using hti)
      have hlist := reaches_list hviable hone hsub (by simpa using hparent) out
      simp only [pathElements_cons] at hlist
      exact ((Reaches.of_step (by simp) hforward).trans hlist).trans (hback _)

/-- What the loop writes, from a first parent that is far enough from the source. -/
theorem dfsLoop_eq (hpos : ∀ node, ∀ e ∈ parents node, e.iter ≠ 0) {node : V} {top : ParentEntry V E}
    {next : ParentList V E} (hall : ∀ e ∈ top :: next, e ∈ parents node)
    (htop : info.lowerBound.toNat ≤ top.iter) :
    ∃ rounds, ∀ fuel, rounds ≤ fuel →
      dfsLoop (dfsStep info slow append check parents) fuel ⟨[top :: next], false, []⟩ =
        some ((top :: (next.takeWhile (info.lowerBound.toNat ≤ ·.iter)).filter (replace [])).flatMap
          fun e => explore append replace parents (e.iter - 1) [e] e.node) := by
  have hviable : ∀ t : ParentEntry V E, decide (info.lowerBound.toNat ≤ t.iter) = true → ∀ e,
      info.isNextViable e (([] : List (ParentList V E)).length + 1) t = decide (info.lowerBound.toNat ≤ e.iter) := by
    simp [PathsOutputWriterInfo.isNextViable]
  have hone : ∀ t ∈ parents node, decide (info.lowerBound.toNat ≤ t.iter) = true → ∀ next' out,
      Reaches (dfsStep info slow append check parents) ⟨(t :: next') :: [], false, out⟩
        (afterTop info (replace (pathElements ([] : List (ParentList V E)))) t next' []
          (out ++ explore append replace parents (t.iter - 1) [t] t.node)) := by
    intro t ht _ next' out
    have hiter : t.iter = t.iter - 1 + 1 := (Nat.succ_pred_eq_of_ne_zero (hpos node t ht)).symm
    exact reaches_afterTop happend hcheck ht hiter
  have hlist := reaches_list hviable hone hall (by simpa using htop) []
  exact hlist.dfsLoop_eq

end Reach

/-! ## Parents in the order of their iterations -/

/-- New parents come first, so the iterations do not increase along a list. -/
def IterSorted (list : ParentList V E) : Prop := list.Pairwise fun e e' => e'.iter ≤ e.iter

theorem IterSorted.filter_eq_takeWhile {list : ParentList V E} (h : IterSorted list) {k : Nat}
    (hle : ∀ e ∈ list, e.iter ≤ k) : list.filter (·.iter = k) = list.takeWhile (·.iter = k) := by
  induction list with
  | nil => rfl
  | cons e list ih =>
    obtain ⟨hfirst, hrest⟩ := pairwise_cons.mp h
    by_cases he : e.iter = k
    · simp [he, ih hrest fun e' he' => hle e' (mem_cons_of_mem _ he')]
    · have hlt : e.iter < k := lt_of_le_of_ne (hle e mem_cons_self) he
      have hnone : list.filter (·.iter = k) = [] := by
        refine filter_eq_nil_iff.mpr fun e' he' => ?_
        have := hfirst e' he'
        simp only [decide_eq_true_eq]
        omega
      simp [he, hnone]

theorem IterSorted.filter_le_eq_takeWhile {list : ParentList V E} (h : IterSorted list) (k : Nat) :
    list.filter (k ≤ ·.iter) = list.takeWhile (k ≤ ·.iter) := by
  induction list with
  | nil => rfl
  | cons e list ih =>
    obtain ⟨hfirst, hrest⟩ := pairwise_cons.mp h
    by_cases he : k ≤ e.iter
    · simp [he, ih hrest]
    · have hnone : list.filter (k ≤ ·.iter) = [] := by
        refine filter_eq_nil_iff.mpr fun e' he' => ?_
        have := hfirst e' he'
        simp only [decide_eq_true_eq]
        omega
      simp [he, hnone]

/-- If both checks agree, the search tries all parents of an iteration that pass. -/
theorem candidates_eq_filter {path : List (ParentEntry V E)} {k : Nat} {list : ParentList V E}
    (h : IterSorted list) (hsame : ∀ e, append path e = replace path e) :
    candidates append replace path k list = list.filter fun e => e.iter = k && append path e := by
  induction list with
  | nil => rfl
  | cons e list ih =>
    obtain ⟨hfirst, hrest⟩ := pairwise_cons.mp h
    by_cases he : (e.iter = k && append path e) = true
    · have hiter : e.iter = k := by
        simp only [Bool.and_eq_true, decide_eq_true_eq] at he
        exact he.1
      have hle : ∀ e' ∈ list, e'.iter ≤ k := fun e' he' => hiter ▸ hfirst e' he'
      have hreplace : replace path = append path := funext fun e' => (hsame e').symm
      have htake := IterSorted.filter_eq_takeWhile hrest hle
      simp only [candidates, dropWhile_cons, filter_cons, he, Bool.not_true, Bool.false_eq_true,
        if_false, hreplace, ← htake]
      simp [Bool.and_comm]
    · have ih := ih hrest
      simp only [candidates, dropWhile_cons, filter_cons, he]
      exact ih

/-- The walks that parents of the iterations `k`, `k - 1`, ..., `1` make. -/
def parentWalks (parents : V → ParentList V E) : Nat → V → List (List (ParentEntry V E)) :=
  HopGraph.walksBy (·.node) fun k node => (parents node).filter (·.iter = k)

theorem explore_eq_parentWalks (hsorted : ∀ node, IterSorted (parents node)) (k : Nat)
    (path : List (ParentEntry V E)) (node : V) :
    explore (fun _ _ => true) (fun _ _ => true) parents k path node =
      (parentWalks parents k node).map (path ++ ·) := by
  induction k generalizing path node with
  | zero => simp [explore, parentWalks, HopGraph.walksBy]
  | succ k ih =>
    rw [explore, candidates_eq_filter (hsorted node) fun _ => rfl]
    simp only [Bool.and_true, ih, parentWalks, HopGraph.walksBy, map_flatMap, map_map]
    refine flatMap_congr fun e _ => map_congr_left fun walk _ => ?_
    simp

/-! ## What the search keeps -/

/-- At each position the parent passes the replace check, or it is the first one of its iteration that
passes the append check. -/
def SearchKeeps (append replace : List (ParentEntry V E) → ParentEntry V E → Bool)
    (parents : V → ParentList V E) : List (ParentEntry V E) → V → List (ParentEntry V E) → Prop
  | _, _, [] => True
  | path, node, e :: tail =>
    (replace path e = true ∨
      (parents node).find? (fun e' => e'.iter = e.iter && append path e') = some e) ∧
    SearchKeeps append replace parents (path ++ [e]) e.node tail

theorem mem_candidates {path : List (ParentEntry V E)} {k : Nat} {list : ParentList V E}
    (h : IterSorted list) (hsub : ∀ e, replace path e = true → append path e = true)
    {e : ParentEntry V E} :
    e ∈ candidates append replace path k list ↔ e ∈ list ∧ e.iter = k ∧
      (replace path e = true ∨ list.find? (fun e' => e'.iter = k && append path e') = some e) := by
  induction list with
  | nil => simp [candidates]
  | cons first list ih =>
    obtain ⟨hfirst, hrest⟩ := pairwise_cons.mp h
    cases hpass : (decide (first.iter = k) && append path first) with
    | true =>
      have hiter : first.iter = k := by
        simp only [Bool.and_eq_true, decide_eq_true_eq] at hpass
        exact hpass.1
      have htake := IterSorted.filter_eq_takeWhile hrest fun e' he' => hiter ▸ hfirst e' he'
      simp only [candidates, dropWhile_cons, hpass, Bool.not_true, Bool.false_eq_true, if_false,
        ← htake, mem_cons, mem_filter, decide_eq_true_eq, find?_cons_of_pos,
        Option.some.injEq]
      constructor
      · rintro (rfl | ⟨⟨he, hi⟩, hr⟩)
        · exact ⟨.inl rfl, hiter, .inr rfl⟩
        · exact ⟨.inr he, hi, .inl hr⟩
      · rintro ⟨rfl | he, hi, hr⟩
        · exact .inl rfl
        · obtain hr | rfl := hr
          · exact .inr ⟨⟨he, hi⟩, hr⟩
          · exact .inl rfl
    | false =>
      have hskip : candidates append replace path k (first :: list) = candidates append replace path k list := by
        simp only [candidates, dropWhile_cons, hpass, Bool.not_false, if_true]
      have hfind : (first :: list).find? (fun e' => e'.iter = k && append path e') =
          list.find? (fun e' => e'.iter = k && append path e') :=
        find?_cons_of_neg (by simp [hpass])
      rw [hskip, hfind, ih hrest, mem_cons]
      refine ⟨fun ⟨he, hi, hr⟩ => ⟨.inr he, hi, hr⟩, fun ⟨he, hi, hr⟩ => ⟨?_, hi, hr⟩⟩
      obtain rfl | he := he
      · obtain hr | hr := hr
        · simp [hi, hsub e hr] at hpass
        · exact mem_of_find?_eq_some hr
      · exact he

theorem candidates_sublist (path : List (ParentEntry V E)) (k : Nat) (list : ParentList V E) :
    (candidates append replace path k list).Sublist list := by
  unfold candidates
  split
  · exact nil_sublist _
  · next first rest hdrop =>
    have hsub : (first :: rest).Sublist list := hdrop ▸ dropWhile_sublist _
    exact ((filter_sublist.trans (takeWhile_sublist _)).cons_cons first).trans hsub

section Keeps

variable (hsorted : ∀ node, IterSorted (parents node))
  (hsub : ∀ path e, replace path e = true → append path e = true)

include hsorted hsub

theorem mem_explore {k : Nat} {path : List (ParentEntry V E)} {node : V}
    {walk : List (ParentEntry V E)} :
    walk ∈ explore append replace parents k path node ↔ ∃ tail ∈ parentWalks parents k node,
      walk = path ++ tail ∧ SearchKeeps append replace parents path node tail := by
  induction k generalizing path node with
  | zero => simp [explore, parentWalks, HopGraph.walksBy, SearchKeeps]
  | succ k ih =>
    simp only [explore, mem_flatMap, mem_candidates (hsorted node) (hsub path), ih, parentWalks,
      HopGraph.walksBy, mem_map, mem_filter, decide_eq_true_eq]
    constructor
    · rintro ⟨e, ⟨he, hi, hr⟩, tail, ht, rfl, hk⟩
      exact ⟨e :: tail, ⟨e, ⟨he, hi⟩, tail, ht, rfl⟩, by simp, by rw [hi]; exact hr, hk⟩
    · rintro ⟨_, ⟨e, ⟨he, hi⟩, tail, ht, rfl⟩, rfl, hr, hk⟩
      rw [hi] at hr
      exact ⟨e, ⟨he, hi, hr⟩, tail, ht, by simp, hk⟩

theorem nodup_explore (hnodup : ∀ node, (parents node).Nodup) (k : Nat)
    (path : List (ParentEntry V E)) (node : V) : (explore append replace parents k path node).Nodup := by
  induction k generalizing path node with
  | zero => exact nodup_singleton _
  | succ k ih =>
    refine nodup_flatMap.mpr ⟨fun e _ => ih _ _, ?_⟩
    refine ((candidates_sublist path (k + 1) (parents node)).nodup (hnodup node)).imp fun hne => ?_
    intro walk h h'
    obtain ⟨tail, -, rfl, -⟩ := (mem_explore hsorted hsub).mp h
    obtain ⟨tail', -, heq, -⟩ := (mem_explore hsorted hsub).mp h'
    simp only [append_assoc, singleton_append, append_cancel_left_eq, List.cons.injEq] at heq
    exact hne heq.1

end Keeps

end CycleJoin

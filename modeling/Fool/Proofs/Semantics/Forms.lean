import Fool.Proofs.Semantics.Simulates

namespace Fool

namespace Reference

namespace Setting

variable {C : Setting} {W : C.Watch} {Γ : Context} {e part left right : ExprRef} {x : Expr} {stop ip n next : Nat} {env : Env}
variable {σ : Store} {s s' : List Int64} {R : Register → Int64} {w : World} {op : Operator} {first second tail code : Code}

/-- A number is pushed. -/
theorem followed_push {v : Int64} (hx : expr C.program.arena (n + 1) env e w = .ok (.int v) w)
    (hp : (W.upTo stop).Embedded ip [.push v]) (hr : C.Ready env Γ σ s R w) :
    W.Followed stop (n + 1) env e [.push v] ip σ s R w := by
  unfold Watch.Followed
  rw [hx]
  intro _
  exact will_push hp.1.1 rfl hr.hp (fun ip => .inl ⟨⟨ip, rfl⟩, List.prefix_refl _⟩) fun _ => will_done (gives_self hr .int)

/-- A part is evaluated, and what is behind it goes on with its value. -/
theorem follows_part {β : Type} {Q : β → World → Config → Prop} {f : Value → EvalM β} (ih : W.Simulates n)
    (hs : C.program.Site Γ e) (hx : C.program.arena.expr? e = some x) (hpart : part ∈ x.parts)
    (hcode : C.Coded Γ.inClass part code) (hp : (W.upTo stop).Embedded ip code) (hr : C.Ready env Γ σ s' R w)
    (ht : W.Told n env σ s' (R .fp) w (.expr part)) (hle : s.length ≤ s'.length) (hf : ∀ v, Prints (f v))
    (h : ∀ v w' σ' R' word, expr C.program.arena n env part w = .ok v w' → C.Keeps σ R σ' R' → w'.objects = σ'.values →
      C.Shown σ' v word → Follows (W.upTo stop) C.size (C.Enough (n + 1) e s) (f v w') Q
        ⟨ip + code.length, word :: s', σ'.heap, R', w'.output⟩) :
    Follows (W.upTo stop) C.size (C.Enough (n + 1) e s) ((expr C.program.arena n env part >>= f) w) Q
      ⟨ip, s', σ.heap, R, w.output⟩ := by
  refine follows_bind hf (ih.of_part hs hx hpart hcode hp hr ht hle) ?_
  rintro v w' c' hrun ⟨σ', R', word, hk, hw, hv, rfl⟩
  exact h v w' σ' R' word hrun hk hw hv

/-- The operand is compared with 1, which decides what is evaluated and where the code goes on. -/
theorem follows_test {Q : Value → World → Config → Prop} {yes no : EvalM Value} {l : String} {t : Nat}
    (ih : W.Simulates n) (hs : C.program.Site Γ e) (hx : C.program.arena.expr? e = some x) (hoperands : x.operands = [part])
    (hsaved : x.saved = 0) (hcode : C.Coded Γ.inClass part code)
    (hp : (W.upTo stop).Embedded ip code) (hpush : (W.upTo stop).get? (ip + code.length) = some (.push 1))
    (hbranch : (W.upTo stop).get? (ip + code.length + 1) = some (.branch .equal l))
    (hl : (W.upTo stop).addressOf? l = some t) (hr : C.Ready env Γ σ s R w)
    (ht : W.Told (n + 1) env σ s (R .fp) w (.expr e)) (hyes : Prints yes) (hno : Prints no)
    (htrue : ∀ w' σ' R', C.Keeps σ R σ' R' → C.Ready env Γ σ' s R' w' →
      (∀ next, x.branch? 1 = some next → W.Told n env σ' s (R' .fp) w' (.expr next)) →
      Follows (W.upTo stop) C.size (C.Enough (n + 1) e s) (yes w') Q ⟨t, s, σ'.heap, R', w'.output⟩)
    (hfalse : ∀ w' σ' R' v, C.Keeps σ R σ' R' → C.Ready env Γ σ' s R' w' → v ≠ 1 →
      (∀ next, x.branch? v = some next → W.Told n env σ' s (R' .fp) w' (.expr next)) →
      Follows (W.upTo stop) C.size (C.Enough (n + 1) e s) (no w') Q ⟨ip + code.length + 1 + 1, s, σ'.heap, R', w'.output⟩) :
    Follows (W.upTo stop) C.size (C.Enough (n + 1) e s)
      ((expr C.program.arena n env part >>= fun v => number v >>= fun x => if x = 1 then yes else no) w) Q
      ⟨ip, s, σ.heap, R, w.output⟩ := by
  have hchosen : ∀ x : Int64, Prints (if x = 1 then yes else no) := fun x => by
    split
    · exact hyes
    · exact hno
  have hpart : part ∈ x.parts := Expr.mem_parts (by simp [hoperands])
  have hpart' := ht.first hx hoperands hsaved hr
  refine follows_part ih hs hx hpart hcode hp hr hpart' (Nat.le_refl _)
    (fun v => prints_bind (prints_number v) hchosen) ?_
  intro v w' σ' R' word hrun hk hw hv
  refine follows_number fun x' hx' => ?_
  subst hx'
  cases hv
  have hr' := hr.after hk (List.suffix_refl _) hw
  have hvs : x.operands.mapM (expr C.program.arena n env) w = .ok [.int word] w' := by
    rw [hoperands]
    exact mapM_cons_of_ok hrun rfl
  have hnext : ∀ next, x.branch? word = some next → W.Told n env σ' s (R' .fp) w' (.expr next) := fun next hnext =>
    ht.branch hx hvs hnext hk
  intro hset
  refine will_push hpush rfl hr'.hp (allowed_overflow (hchosen word)) fun _ => will_branch hbranch hl ?_
  by_cases hone : word = 1
  · rw [if_pos hone] at hset ⊢
    rw [if_pos (by simpa [Comparison.holds] using hone)]
    subst hone
    exact htrue w' σ' R' hk hr' hnext hset
  · rw [if_neg hone] at hset ⊢
    rw [if_neg (by simpa [Comparison.holds] using hone)]
    exact hfalse w' σ' R' word hk hr' hone hnext hset

/-- Two operands are evaluated, one behind the other. -/
theorem follows_parts {Q : Value → World → Config → Prop} {f : Value → Value → EvalM Value} (ih : W.Simulates n)
    (hs : C.program.Site Γ e) (hx : C.program.arena.expr? e = some x) (hoperands : x.operands = [left, right])
    (hsaved : x.saved = 0) (hfirst : C.Coded Γ.inClass left first)
    (hsecond : C.Coded Γ.inClass right second) (hp : (W.upTo stop).Embedded ip (first ++ second))
    (hr : C.Ready env Γ σ s R w) (ht : W.Told (n + 1) env σ s (R .fp) w (.expr e)) (hf : ∀ v v', Prints (f v v'))
    (h : ∀ v v' w' σ' R' word word', C.Keeps σ R σ' R' → C.Ready env Γ σ' s R' w' → C.Shown σ' v word →
      C.Shown σ' v' word' → Follows (W.upTo stop) C.size (C.Enough (n + 1) e s) (f v v' w') Q
        ⟨ip + (first ++ second).length, word' :: word :: s, σ'.heap, R', w'.output⟩) :
    Follows (W.upTo stop) C.size (C.Enough (n + 1) e s)
      ((expr C.program.arena n env left >>= fun v => expr C.program.arena n env right >>= f v) w) Q
      ⟨ip, s, σ.heap, R, w.output⟩ := by
  obtain ⟨hp, hp'⟩ := View.embedded_append.1 hp
  have hfirst' := ht.first hx hoperands hsaved hr
  refine follows_part ih hs hx (Expr.mem_parts (by simp [hoperands])) hfirst hp hr hfirst' (Nat.le_refl _)
    (fun v => prints_bind (prints_expr _ _ _) (hf v)) ?_
  intro v w' σ' R' word hrun hk hw hv
  have hr' := hr.after hk (List.suffix_cons word s) hw
  have hoperands' : x.operands = [left] ++ right :: [] := hoperands
  have hsecond' := ht.operand hx hoperands' (mapM_cons_of_ok hrun rfl) hk (List.suffix_cons word s) (by rw [hsaved]; rfl)
  refine follows_part ih hs hx (Expr.mem_parts (by simp [hoperands])) hsecond hp' hr' hsecond' (Nat.le_succ _) (hf v) ?_
  intro v' w'' σ'' R'' word' _ hk' hw' hv'
  rw [Nat.add_assoc, ← List.length_append]
  exact h v v' w'' σ'' R'' word word' (hk.trans hk') (hr.after (hk.trans hk') (List.suffix_refl s) hw') (hv.grow hk'.grows) hv'

theorem operands_binary (hor : op ≠ .or) (hge : op ≠ .greaterEqual) :
    (Expr.binary op left right).operands = [left, right] := by
  cases op <;> first | rfl | contradiction

theorem expr_binary {arena : Arena} (hx : arena.expr? e = some (.binary op left right)) (hor : op ≠ .or)
    (hge : op ≠ .greaterEqual) : expr arena (n + 1) env e =
      expr arena n env left >>= fun x => expr arena n env right >>= fun y => operate op x y := by
  rw [expr, hx]
  cases op <;> first | rfl | contradiction

/-- The right operand of `||` is evaluated if the left one is not 1. -/
theorem followed_or {onTrue done : String} (ih : W.Simulates n) (hs : C.program.Site Γ e)
    (hx : C.program.arena.expr? e = some (.binary .or left right)) (hfirst : C.Coded Γ.inClass left first)
    (hsecond : C.Coded Γ.inClass right second)
    (hp : (W.upTo stop).Embedded ip (first ++ ([.push 1, .branch .equal onTrue] ++ second ++
      .push 1 :: .branch .equal onTrue :: Code.truth onTrue done))) (hr : C.Ready env Γ σ s R w)
    (ht : W.Told (n + 1) env σ s (R .fp) w (.expr e)) : W.Followed stop (n + 1) env e (first ++ ([.push 1, .branch .equal onTrue] ++ second ++
      .push 1 :: .branch .equal onTrue :: Code.truth onTrue done)) ip σ s R w := by
  unfold Watch.Followed
  rw [expr, hx]
  dsimp only
  obtain ⟨hfirst', hp⟩ := View.embedded_append.1 hp
  obtain ⟨hp, ⟨hpush', htruth⟩, -⟩ := View.embedded_append.1 hp
  obtain ⟨⟨⟨hpush, hbranch, -⟩, -⟩, hsecond'⟩ := View.embedded_append.1 hp
  have hnumber : ∀ v, Prints (number v >>= fun y => pure (truth (decide (y = 1)))) := fun v =>
    prints_bind (prints_number v) fun y => prints_pure _
  refine follows_test ih hs hx rfl rfl hfirst hfirst' hpush hbranch (Watch.labels htruth.2.2.2.1) hr ht
    (prints_pure _) (prints_bind (prints_expr _ _ _) hnumber) ?_ ?_
  · intro w' σ' R' hk hr' _ _
    obtain ⟨-, -, -, hl, hone, hdone, -⟩ := htruth
    refine will_label hl (will_push hone rfl hr'.hp (allowed_overflow (prints_pure _)) fun _ => will_label hdone ?_)
    exact will_done ((gives_self hr' .int).after hk (by simp [Code.truth]; omega))
  · intro w' σ' R' v hk hr' hne hright
    refine follows_part ih hs hx (by simp [Expr.parts]) hsecond hsecond' hr' (hright _ (if_neg hne)) (Nat.le_refl _) hnumber ?_
    intro v' w'' σ'' R'' word' _ hk' hw' hv'
    refine follows_number fun y hy' => ?_
    subst hy'
    cases hv'
    have hr'' := hr'.after hk' (List.suffix_refl _) hw'
    rw [List.length_append, ← Nat.add_assoc] at hpush' htruth
    intro hset
    refine will_push hpush' rfl hr''.hp (allowed_overflow (prints_pure _)) fun _ => ?_
    refine ((follows_truth hr'' htruth).mono fun v w c h => ?_) hset
    exact h.after (hk.trans hk') (by simp [Code.truth]; omega)

theorem followed_binary (ih : W.Simulates n) (hs : C.program.Site Γ e)
    (hx : C.program.arena.expr? e = some (.binary op left right)) (hne : op ≠ .greaterEqual)
    (hfirst : C.Coded Γ.inClass left first) (hsecond : C.Coded Γ.inClass right second)
    (htail : Generator.Tail op second tail) (hp : (W.upTo stop).Embedded ip (first ++ tail)) (hr : C.Ready env Γ σ s R w)
    (ht : W.Told (n + 1) env σ s (R .fp) w (.expr e)) : W.Followed stop (n + 1) env e (first ++ tail) ip σ s R w := by
  unfold Watch.Followed
  cases htail with
  | arith ho =>
    have hor : op ≠ .or := by rintro rfl; cases ho
    rw [expr_binary hx hor hne]
    rw [← List.append_assoc] at hp ⊢
    obtain ⟨hp, hi, -⟩ := View.embedded_append.1 hp
    refine follows_parts ih hs hx (operands_binary hor hne) rfl hfirst hsecond hp hr ht
      (prints_operate op) fun v v' w' σ' R' word word' hk hr' hv hv' => ?_
    exact (follows_arith ho hr' hi.1 hv hv').mono fun v w c h => h.after hk (by simp; omega)
  | comparison ho =>
    have hor : op ≠ .or := by rintro rfl; cases ho
    rw [expr_binary hx hor hne]
    rw [← List.append_assoc] at hp ⊢
    obtain ⟨hp, hi, -⟩ := View.embedded_append.1 hp
    refine follows_parts ih hs hx (operands_binary hor hne) rfl hfirst hsecond hp hr ht
      (prints_operate op) fun v v' w' σ' R' word word' hk hr' hv hv' => ?_
    exact (follows_comparison ho hne hr' hi hv hv').mono fun v w c h => h.after hk (by simp [Code.truth]; omega)
  | or => exact followed_or ih hs hx hfirst hsecond hp hr ht

/-- The operands of `>=` are evaluated from right to left. -/
theorem followed_greaterEqual (ih : W.Simulates n) (hs : C.program.Site Γ e)
    (hx : C.program.arena.expr? e = some (.binary .greaterEqual left right)) (hfirst : C.Coded Γ.inClass right first)
    (hsecond : C.Coded Γ.inClass left second) (htail : Generator.Tail .greaterEqual second tail)
    (hp : (W.upTo stop).Embedded ip (first ++ tail)) (hr : C.Ready env Γ σ s R w)
    (ht : W.Told (n + 1) env σ s (R .fp) w (.expr e)) : W.Followed stop (n + 1) env e (first ++ tail) ip σ s R w := by
  unfold Watch.Followed
  cases htail with
  | arith ho => cases ho
  | comparison ho =>
    cases ho
    rw [expr, hx]
    rw [← List.append_assoc] at hp ⊢
    obtain ⟨hp, hi, -⟩ := View.embedded_append.1 hp
    refine follows_parts ih hs hx rfl rfl hfirst hsecond hp hr ht
      (fun y x => prints_operate _ x y) fun y x w' σ' R' word word' hk hr' hy hx' => ?_
    refine follows_onNumbers fun a b ha hb => ?_
    subst ha hb
    cases hy
    cases hx'
    exact (follows_truth hr' hi).mono fun v w c h => h.after hk (by simp [Code.truth]; omega)

theorem followed_not {operand : ExprRef} {onTrue done : String} (ih : W.Simulates n) (hs : C.program.Site Γ e)
    (hx : C.program.arena.expr? e = some (.not operand)) (hcode : C.Coded Γ.inClass operand code)
    (hp : (W.upTo stop).Embedded ip (code ++ .push 0 :: .branch .equal onTrue :: Code.truth onTrue done))
    (hr : C.Ready env Γ σ s R w) (ht : W.Told (n + 1) env σ s (R .fp) w (.expr e)) : W.Followed stop (n + 1) env e (code ++ .push 0 :: .branch .equal onTrue :: Code.truth onTrue done) ip σ s R w := by
  unfold Watch.Followed
  rw [expr, hx]
  obtain ⟨hp, ⟨hpush, htruth⟩, -⟩ := View.embedded_append.1 hp
  have hoperand := ht.first hx rfl rfl hr
  refine follows_part ih hs hx (by simp [Expr.parts]) hcode hp hr hoperand (Nat.le_refl _)
    (fun v => prints_bind (prints_number v) fun x => prints_pure _) fun v w' σ' R' word _ hk hw hv => ?_
  refine follows_number fun x hx' => ?_
  subst hx'
  cases hv
  have hr' := hr.after hk (List.suffix_refl _) hw
  intro hset
  refine will_push hpush rfl hr'.hp (allowed_overflow (prints_pure _)) fun _ => ?_
  exact ((follows_truth hr' htruth).mono fun v w c h => h.after hk (by simp [Code.truth]; omega)) hset

theorem followed_ifElse {condition onTrue onFalse : ExprRef} {test yes no : Code} {first done : String}
    (ih : W.Simulates n) (hs : C.program.Site Γ e)
    (hx : C.program.arena.expr? e = some (.ifElse condition onTrue onFalse)) (htest : C.Coded Γ.inClass condition test)
    (hyes : C.Coded Γ.inClass onTrue yes) (hno : C.Coded Γ.inClass onFalse no)
    (hp : (W.upTo stop).Embedded ip (test ++ [.push 1, .branch .equal first] ++ no ++ [.jump done, .label first] ++ yes ++
      [.label done])) (hr : C.Ready env Γ σ s R w)
    (ht : W.Told (n + 1) env σ s (R .fp) w (.expr e)) : W.Followed stop (n + 1) env e (test ++ [.push 1, .branch .equal first] ++ no ++ [.jump done, .label first] ++ yes ++
      [.label done]) ip σ s R w := by
  unfold Watch.Followed
  rw [expr, hx]
  obtain ⟨hp, ⟨hdone, -⟩, -⟩ := View.embedded_append.1 hp
  obtain ⟨hp, hyes'⟩ := View.embedded_append.1 hp
  obtain ⟨hp, ⟨hjump, hlabel, -⟩, -⟩ := View.embedded_append.1 hp
  obtain ⟨hp, hno'⟩ := View.embedded_append.1 hp
  obtain ⟨htest', ⟨hpush, hbranch, -⟩, -⟩ := View.embedded_append.1 hp
  simp only [List.length_append, List.length_cons, List.length_nil, Nat.zero_add, ← Nat.add_assoc]
    at hdone hyes' hjump hlabel hno' hpush hbranch
  refine follows_test ih hs hx rfl rfl htest htest' hpush hbranch (Watch.labels hlabel) hr ht
    (prints_expr _ _ _) (prints_expr _ _ _) ?_ ?_
  · intro w' σ' R' hk hr' hchosen hset
    refine will_label hlabel ?_
    refine (ih.of_part hs hx (by simp [Expr.parts]) hyes hyes' hr' (hchosen _ rfl) (Nat.le_refl s.length)).onward ?_ hset
    rintro v w c ⟨σ'', R'', word', hk', hw', hv', rfl⟩
    refine will_label hdone (will_done ⟨σ'', R'', word', hk.trans hk', hw', hv', ?_⟩)
    simp
    omega
  · intro w' σ' R' v hk hr' hne hchosen
    have hnext := hchosen onFalse (congrArg some (if_neg hne))
    refine (ih.of_part hs hx (by simp [Expr.parts]) hno hno' hr' hnext (Nat.le_refl s.length)).onward ?_
    rintro v w c ⟨σ'', R'', word', hk', hw', hv', rfl⟩
    refine will_jump hjump (Watch.labels hdone) (will_label hdone ?_)
    refine will_done ⟨σ'', R'', word', hk.trans hk', hw', hv', ?_⟩
    simp
    omega

theorem followed_print {operand : ExprRef} (ih : W.Simulates n) (hs : C.program.Site Γ e)
    (hx : C.program.arena.expr? e = some (.print operand)) (hcode : C.Coded Γ.inClass operand code)
    (hp : (W.upTo stop).Embedded ip (code ++ Code.duplicate ++ [.print])) (hr : C.Ready env Γ σ s R w)
    (ht : W.Told (n + 1) env σ s (R .fp) w (.expr e)) : W.Followed stop (n + 1) env e (code ++ Code.duplicate ++ [.print]) ip σ s R w := by
  unfold Watch.Followed
  rw [expr, hx]
  obtain ⟨hp, ⟨hprint, -⟩, -⟩ := View.embedded_append.1 hp
  obtain ⟨hp, hdup, -⟩ := View.embedded_append.1 hp
  have hrest : ∀ x, Prints (printed x >>= fun _ => (pure (.int x) : EvalM Value)) := fun x =>
    prints_bind (prints_printed x) fun _ => prints_pure _
  have hoperand := ht.first hx rfl rfl hr
  refine follows_part ih hs hx (by simp [Expr.parts]) hcode hp hr hoperand (Nat.le_refl _)
    (fun v => prints_bind (prints_number v) hrest) fun v w' σ' R' word _ hk hw hv => ?_
  refine follows_number fun x hx' => ?_
  subst hx'
  cases hv
  intro _
  refine will_duplicate hdup hk.hp (fun _ => allowed_overflow (hrest word)) ?_
  refine will_print (by simpa [Nat.add_assoc, Code.duplicate] using hprint) (will_done ?_)
  refine ⟨σ', _, word, hk.update (.inl rfl) word, hw, .int, ?_⟩
  simp [Code.duplicate, Nat.add_assoc]

/-! ## Names -/

section Names

open Generator

variable {E : MachineError → List Int64 → Prop} {Q : Config → Prop} {entry : Entry} {m : Option Entry} {a b : Nat}
variable {out : List Int64} {k : Int} {word : Int64} {name : Symbol}

/-- The code for a frame or an object leads to its address. -/
theorem will_frameOf (hp : (W.upTo stop).Placed ip (frameOf (Int64.ofNat C.size) Γ.inClass ⟨entry, Γ.depth, m⟩))
    (hreach : C.Reaches σ s Γ a entry.depth b) (hfp : R .fp = Int64.ofNat a) (hhp : R .hp = Int64.ofNat σ.heap.length)
    (he : ∀ ip, E (.stackOverflow ip) out)
    (h : Will (W.upTo stop) C.size Q E ⟨ip + (frameOf (Int64.ofNat C.size) Γ.inClass ⟨entry, Γ.depth, m⟩).length,
      Int64.ofNat b :: s, σ.heap, R, out⟩) : Will (W.upTo stop) C.size Q E ⟨ip, s, σ.heap, R, out⟩ := by
  unfold frameOf at hp h
  unfold Reaches at hreach
  dsimp only at hp h
  split at hreach
  · rename_i hcond
    rw [if_pos hcond] at hp h
    subst hreach
    exact will_push hp.1 rfl hhp he fun _ => h
  · rename_i hcond
    rw [if_neg hcond] at hp h
    refine will_push hp.1 rfl hhp he fun _ => ?_
    rw [hfp]
    refine will_hops hp.2 hreach (low_of_eq hhp) ?_
    rw [List.length_cons, List.length_replicate] at h
    rwa [Nat.add_assoc, Nat.add_comm 1]

/-- A word at an offset from an address. -/
theorem will_loadHeld (hp : (W.upTo stop).Placed ip (Code.loadAt k)) (hheld : C.Holds σ s b k word)
    (hhp : R .hp = Int64.ofNat σ.heap.length) (he : ∀ ip, E (.stackOverflow ip) out)
    (h : Will (W.upTo stop) C.size Q E ⟨ip + 3, word :: s, σ.heap, R, out⟩) :
    Will (W.upTo stop) C.size Q E ⟨ip, Int64.ofNat b :: s, σ.heap, R, out⟩ := by
  obtain ⟨b', hb', hcell⟩ := hheld
  exact will_loadAt hp hb' hcell hhp he h

/-- What a name means at its site is found. -/
theorem Ready.finds (hr : C.Ready env Γ σ s R w) (hs : C.program.Site Γ e) (hlook : Γ.lookup? name = some entry) :
    ∃ a, R .fp = Int64.ofNat a ∧ C.Finds σ s env Γ a name entry := by
  obtain ⟨a, hfp, hl⟩ := hr.located
  exact ⟨a, hfp, hl.find hr.globals (C.faultless.clean hs).distinct hlook⟩

/-- The word of a name is loaded. -/
theorem follows_load {H : Prop} {r : EStateM.Result Stop World Value} {v : Value}
    (hp : (W.upTo stop).Embedded ip (frameOf (Int64.ofNat C.size) Γ.inClass ⟨entry, Γ.depth, m⟩ ++ Code.loadAt entry.offset))
    (hr : C.Ready env Γ σ s R w) (hfp : R .fp = Int64.ofNat a) (hreach : C.Reaches σ s Γ a entry.depth b)
    (hheld : C.Holds σ s b entry.offset word) (hv : C.Shown σ v word) (hrun : r = .ok v w) :
    Follows (W.upTo stop) C.size H r (C.Gives σ s R
      (ip + (frameOf (Int64.ofNat C.size) Γ.inClass ⟨entry, Γ.depth, m⟩ ++ Code.loadAt entry.offset).length))
      ⟨ip, s, σ.heap, R, w.output⟩ := by
  subst hrun
  obtain ⟨⟨hframe, -⟩, hload, -⟩ := View.embedded_append.1 hp
  have he : ∀ ip, Allowed (.ok v w : EStateM.Result Stop World Value) (.stackOverflow ip) w.output := fun ip =>
    .inl ⟨⟨ip, rfl⟩, List.prefix_refl _⟩
  intro _
  refine will_frameOf hframe hreach hfp hr.hp he (will_loadHeld hload hheld hr.hp he (will_done ?_))
  rw [List.length_append, ← Nat.add_assoc]
  exact gives_self hr hv

theorem followed_name {r : Resolution} (hs : C.program.Site Γ e) (hx : C.program.arena.expr? e = some (.name name))
    (hget : (C.program.bind C.names).resolutions.get? e = some r)
    (hp : (W.upTo stop).Embedded ip (frameOf (Int64.ofNat C.size) Γ.inClass r ++ Code.loadAt r.entry.offset))
    (hr : C.Ready env Γ σ s R w) :
    W.Followed stop (n + 1) env e (frameOf (Int64.ofNat C.size) Γ.inClass r ++ Code.loadAt r.entry.offset) ip σ s R w := by
  obtain ⟨entry, hlook, hget', hglobal⟩ := C.faultless.name hs hx
  obtain rfl := Option.some.inj (hget.symm.trans hget')
  obtain ⟨a, hfp, node, b, hfind, hdepth, hreach, hfound, -⟩ := hr.finds hs hlook
  unfold Watch.Followed
  rw [expr, hx]
  dsimp only
  have hheld := hfound.held hr.sound hr.objects hfind
  cases hfound with
  | func hl hf hh =>
    exact follows_load hp hr hfp hreach hh (hl.shown_func hf (hglobal (.inl rfl))) (by rw [nameValue, hfind]; rfl)
  | cls hh => exact follows_load hp hr hfp hreach hh .cls (by rw [nameValue, hfind]; rfl)
  | value hk hh hv => exact follows_load hp hr hfp hreach hh hv (by rw [nameValue, held, hfind]; rfl)
  | object ho hcls henv hm hd hmeaning =>
    have heq : nameValue env name w = EStateM.bind (held env name) (fun q => pure q.2) w := by rw [nameValue, hfind]; rfl
    unfold EStateM.bind at heq
    rcases hheld with hrun | ⟨ty, v, hrun, -, -, word, hh, hv⟩
    · rw [heq, hrun]
      exact fun hset => hset.elim
    · exact follows_load hp hr hfp hreach hh hv (by rw [heq, hrun]; rfl)

end Names

end Setting

end Reference

end Fool

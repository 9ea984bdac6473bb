/-!
The native engine as generated code sees it: its types, its constants and its entry points. Entry
points take the environment first unless it is said otherwise.
-/

namespace ScriptC.Engine

def typeValue := "js_val"
def typeEnvironment := "js_environ"
def typeObject := "js_obj"
def typeArray := "js_arr"
def typeShapeCache := "js_shape_cache"
def typeTry := "js_try"

def valUndefined := "js_undefined"
def valNull := "js_null"
def valFalse := "js_false"
def valTrue := "js_true"
def valDeleted := "js_deleted"
def valNaN := "js_nan"

/-! Values. The first three and `isNullish` take no environment. -/

def makeNumber := "js_make_number"
def toInt32 := "js_toint32"
def toUint32 := "js_touint32"
def toNumber := "js_tonumber"
def isTruthy := "js_is_truthy"
def isNullish := "js_is_nullish"
def typeOf := "js_typeof"
def typeOfIs := "js_typeof_is"
def toPropertyKey := "js_topropkey"
def toText := "js_tostring"
def toNumeric := "js_tonumeric"
def requireObject := "js_requireobj"

/-! Operators -/

def add := "js_add"
def binaryOp := "js_binop"
def unaryOp := "js_unop"
def strictEq := "js_strict_eq"
def looseEq := "js_loose_eq"
def compareOp := "js_compare"
def instanceOf := "js_instanceof"
def hasProperty := "js_hasprop"
def concat := "js_concat"

/-! Properties -/

def getProperty := "js_getprop"
def setProperty := "js_setprop"
def deleteProperty := "js_delprop"
def getDescriptor := "js_getdescr"
def getIndex := "js_getindex"
def setIndex := "js_setindex"
def setLength := "js_setlength"
def defineProperty := "js_defprop"
def defineAccessor := "js_defaccessor"
def defineMethod := "js_defmethod"
def setPrototype := "js_setproto"
def spreadObject := "js_spreadobj"
def restObject := "js_restobj"
def getSuper := "js_getsuper"
def setSuper := "js_setsuper"
def getGlobal := "js_getglobal"
def setGlobal := "js_setglobal"
def deleteGlobal := "js_delglobal"
def withGet := "js_withget"
def withSet := "js_withset"
def withTypeOf := "js_withtypeof"
def withDelete := "js_withdel"
def withRef := "js_withref"
def pushWith := "js_pushwith"
def popWith := "js_popwith"
def globalObject := "js_globalobject"

/-! Objects and arrays -/

def newObject := "js_newobj"
def newArray := "js_newarr"
def arraySpread := "js_arrspread"
def arrayPush := "js_arrpush"
def newRegExp := "js_newregexp"
def template := "js_template"

/-! Functions and calls. `isFunction`, `functionPointer`, `closures` and `shapeCache` take no
environment. -/

def newFunction := "js_newfunc"
def newCell := "js_newcell"
def callFunction := "js_callfunc"
def callValue := "js_callvalue"
def callGlobal := "js_callglobal"
def callWith := "js_callwith"
def apply := "js_apply"
def construct := "js_construct"
def constructArray := "js_construct_arr"
def superConstructor := "js_superctor"
def isFunction := "js_is_func"
def functionPointer := "js_funcptr"
def closures := "js_closures"
def shapeCache := "js_shapecache"
def arguments := "js_arguments"
def currentArguments := "js_curargs"
def restArguments := "js_restargs"
def boxThis := "js_boxthis"
def stackCheck := "js_stack_check"
def checkThis := "js_checkthis"
def derivedReturn := "js_derivedret"
def makeClass := "js_makeclass"
def newTarget := "js_newtarget"
def deadZone := "js_tdz"

/-! Iterators, three slots each: the next function, its target and the current value -/

def getIterator := "js_getiter"
def getKeys := "js_getkeys"
def nextIterator := "js_nextiter"
def restIterator := "js_restiter"
def closeIterator := "js_closeiter"

/-! Exceptions -/

def enterTry := "js_entertry"
def leaveTry := "js_leavetry"
def caught := "js_catch"
def throwValue := "js_throw"
def throwReference := "js_throwref"
def throwType := "js_throwtype"

/-! Coroutines -/

def newCoroutine := "js_newcoroutine"
def yieldValue := "js_yield"
def yieldAll := "js_yieldstar"
def await := "js_await"

/-! The program. `start` takes no environment, `shutdown` only that. -/

def start := "js_init"
def stackBase := "js_stackbase"
def shutdown := "js_shutdown"
def newString := "js_newstr"
def newBigInt := "js_newbigint"
def newShape := "js_newshape"

/-! Flags of members -/

def propGetter := "JS_PROP_GETTER"
def propSetter := "JS_PROP_SETTER"
def propClass := "JS_PROP_CLASS"

/-! Widths of the fields of a function object -/

def maxParams : Nat := 255
def maxClosures : Nat := 65535
def maxShapeCacheSlots : Nat := 65535

end ScriptC.Engine

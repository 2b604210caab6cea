import SignatureLayers.Message.Class

namespace SignatureLayers.Message

/-- What is to be read about operators, which is the same for all classes that have them. -/
def operatorManual : List (String × String × String) :=
  [("__repr__", "($self, /)", "Return repr(self)."),
    ("__hash__", "($self, /)", "Return hash(self)."),
    ("__str__", "($self, /)", "Return str(self)."),
    ("__getattribute__", "($self, name, /)", "Return getattr(self, name)."),
    ("__lt__", "($self, value, /)", "Return self<value."),
    ("__le__", "($self, value, /)", "Return self<=value."),
    ("__eq__", "($self, value, /)", "Return self==value."),
    ("__ne__", "($self, value, /)", "Return self!=value."),
    ("__gt__", "($self, value, /)", "Return self>value."),
    ("__ge__", "($self, value, /)", "Return self>=value."),
    ("__iter__", "($self, /)", "Implement iter(self)."),
    ("__mod__", "($self, value, /)", "Return self%value."),
    ("__rmod__", "($self, value, /)", "Return value%self."),
    ("__len__", "($self, /)", "Return len(self)."),
    ("__getitem__", "($self, key, /)", "Return self[key]."),
    ("__add__", "($self, value, /)", "Return self+value."),
    ("__mul__", "($self, value, /)", "Return self*value."),
    ("__rmul__", "($self, value, /)", "Return value*self."),
    ("__contains__", "($self, key, /)", "Return key in self."),
    ("__radd__", "($self, value, /)", "Return value+self."),
    ("__sub__", "($self, value, /)", "Return self-value."),
    ("__rsub__", "($self, value, /)", "Return value-self."),
    ("__divmod__", "($self, value, /)", "Return divmod(self, value)."),
    ("__rdivmod__", "($self, value, /)", "Return divmod(value, self)."),
    ("__pow__", "($self, value, mod=None, /)", "Return pow(self, value, mod)."),
    ("__rpow__", "($self, value, mod=None, /)", "Return pow(value, self, mod)."),
    ("__neg__", "($self, /)", "-self"),
    ("__pos__", "($self, /)", "+self"),
    ("__abs__", "($self, /)", "abs(self)"),
    ("__bool__", "($self, /)", "True if self else False"),
    ("__invert__", "($self, /)", "~self"),
    ("__lshift__", "($self, value, /)", "Return self<<value."),
    ("__rlshift__", "($self, value, /)", "Return value<<self."),
    ("__rshift__", "($self, value, /)", "Return self>>value."),
    ("__rrshift__", "($self, value, /)", "Return value>>self."),
    ("__and__", "($self, value, /)", "Return self&value."),
    ("__rand__", "($self, value, /)", "Return value&self."),
    ("__xor__", "($self, value, /)", "Return self^value."),
    ("__rxor__", "($self, value, /)", "Return value^self."),
    ("__or__", "($self, value, /)", "Return self|value."),
    ("__ror__", "($self, value, /)", "Return value|self."),
    ("__int__", "($self, /)", "int(self)"),
    ("__float__", "($self, /)", "float(self)"),
    ("__floordiv__", "($self, value, /)", "Return self//value."),
    ("__rfloordiv__", "($self, value, /)", "Return value//self."),
    ("__truediv__", "($self, value, /)", "Return self/value."),
    ("__rtruediv__", "($self, value, /)", "Return value/self."),
    ("__index__", "($self, /)",
      "Return self converted to an integer, if self is suitable for use as an index into a list."),
    ("__setattr__", "($self, name, value, /)", "Implement setattr(self, name, value)."),
    ("__delattr__", "($self, name, /)", "Implement delattr(self, name)."),
    ("__init__", "($self, /, *args, **kwargs)",
      "Initialize self.  See help(type(self)) for accurate signature."),
    ("__call__", "($self, /, *args, **kwargs)", "Call self as a function."),
    ("__get__", "($self, instance, owner=None, /)",
      "Return an attribute of instance, which is of type owner."),
    ("__set__", "($self, instance, value, /)", "Set an attribute of instance to value."),
    ("__delete__", "($self, instance, /)", "Delete an attribute of instance."),
    ("__ior__", "($self, value, /)", "Return self|=value."),
    ("__setitem__", "($self, key, value, /)", "Set self[key] to value."),
    ("__delitem__", "($self, key, /)", "Delete self[key].")]

def memberManual : Class → List (String × String × String)
  | .text => [
    ("encode", "($self, /, encoding='utf-8', errors='strict')",
      "Encode the string using the codec registered for encoding.\n\n  encoding\n    The " ++
      "encoding in which to encode the string.\n  errors\n    The error handling scheme to use " ++
      "for encoding errors.\n    The default is 'strict' meaning that encoding errors raise " ++
      "a\n    UnicodeEncodeError.  Other possible values are 'ignore', 'replace' and\n    " ++
      "'xmlcharrefreplace' as well as any other name registered with\n    codecs.register_error " ++
      "that can handle UnicodeEncodeErrors."),
    ("replace", "($self, old, new, count=-1, /)",
      "Return a copy with all occurrences of substring old replaced by new.\n\n  count\n    " ++
      "Maximum number of occurrences to replace.\n    -1 (the default value) means replace all " ++
      "occurrences.\n\nIf the optional argument count is given, only the first count " ++
      "occurrences are\nreplaced."),
    ("split", "($self, /, sep=None, maxsplit=-1)",
      "Return a list of the substrings in the string, using sep as the separator string.\n\n  " ++
      "sep\n    The separator used to split the string.\n\n    When set to None (the default " ++
      "value), will split on any whitespace\n    character (including \\\\n \\\\r \\\\t \\\\f " ++
      "and spaces) and will discard\n    empty strings from the result.\n  maxsplit\n    " ++
      "Maximum number of splits (starting from the left).\n    -1 (the default value) means no " ++
      "limit.\n\nNote, str.split() is mainly useful for data that has been intentionally\n" ++
      "delimited.  With natural text that includes punctuation, consider using\nthe regular " ++
      "expression module."),
    ("rsplit", "($self, /, sep=None, maxsplit=-1)",
      "Return a list of the substrings in the string, using sep as the separator string.\n\n  " ++
      "sep\n    The separator used to split the string.\n\n    When set to None (the default " ++
      "value), will split on any whitespace\n    character (including \\\\n \\\\r \\\\t \\\\f " ++
      "and spaces) and will discard\n    empty strings from the result.\n  maxsplit\n    " ++
      "Maximum number of splits (starting from the left).\n    -1 (the default value) means no " ++
      "limit.\n\nSplitting starts at the end of the string and works to the front."),
    ("join", "($self, iterable, /)",
      "Concatenate any number of strings.\n\nThe string whose method is called is inserted in " ++
      "between each given string.\nThe result is returned as a new string.\n\nExample: " ++
      "'.'.join(['ab', 'pq', 'rs']) -> 'ab.pq.rs'"),
    ("capitalize", "($self, /)",
      "Return a capitalized version of the string.\n\nMore specifically, make the first " ++
      "character have upper case and the rest lower\ncase."),
    ("casefold", "($self, /)",
      "Return a version of the string suitable for caseless comparisons."),
    ("title", "($self, /)",
      "Return a version of the string where each word is titlecased.\n\nMore specifically, " ++
      "words start with uppercased characters and all remaining\ncased characters have lower " ++
      "case."),
    ("center", "($self, width, fillchar=' ', /)",
      "Return a centered string of length width.\n\nPadding is done using the specified fill " ++
      "character (default is a space)."),
    ("count", "",
      "S.count(sub[, start[, end]]) -> int\n\nReturn the number of non-overlapping occurrences " ++
      "of substring sub in\nstring S[start:end].  Optional arguments start and end are\n" ++
      "interpreted as in slice notation."),
    ("expandtabs", "($self, /, tabsize=8)",
      "Return a copy where all tab characters are expanded using spaces.\n\nIf tabsize is not " ++
      "given, a tab size of 8 characters is assumed."),
    ("find", "",
      "S.find(sub[, start[, end]]) -> int\n\nReturn the lowest index in S where substring sub " ++
      "is found,\nsuch that sub is contained within S[start:end].  Optional\narguments start " ++
      "and end are interpreted as in slice notation.\n\nReturn -1 on failure."),
    ("partition", "($self, sep, /)",
      "Partition the string into three parts using the given separator.\n\nThis will search for " ++
      "the separator in the string.  If the separator is found,\nreturns a 3-tuple containing " ++
      "the part before the separator, the separator\nitself, and the part after it.\n\nIf the " ++
      "separator is not found, returns a 3-tuple containing the original string\nand two empty " ++
      "strings."),
    ("index", "",
      "S.index(sub[, start[, end]]) -> int\n\nReturn the lowest index in S where substring sub " ++
      "is found,\nsuch that sub is contained within S[start:end].  Optional\narguments start " ++
      "and end are interpreted as in slice notation.\n\nRaises ValueError when the substring is " ++
      "not found."),
    ("ljust", "($self, width, fillchar=' ', /)",
      "Return a left-justified string of length width.\n\nPadding is done using the specified " ++
      "fill character (default is a space)."),
    ("lower", "($self, /)", "Return a copy of the string converted to lowercase."),
    ("lstrip", "($self, chars=None, /)",
      "Return a copy of the string with leading whitespace removed.\n\nIf chars is given and " ++
      "not None, remove characters in chars instead."),
    ("rfind", "",
      "S.rfind(sub[, start[, end]]) -> int\n\nReturn the highest index in S where substring sub " ++
      "is found,\nsuch that sub is contained within S[start:end].  Optional\narguments start " ++
      "and end are interpreted as in slice notation.\n\nReturn -1 on failure."),
    ("rindex", "",
      "S.rindex(sub[, start[, end]]) -> int\n\nReturn the highest index in S where substring " ++
      "sub is found,\nsuch that sub is contained within S[start:end].  Optional\narguments " ++
      "start and end are interpreted as in slice notation.\n\nRaises ValueError when the " ++
      "substring is not found."),
    ("rjust", "($self, width, fillchar=' ', /)",
      "Return a right-justified string of length width.\n\nPadding is done using the specified " ++
      "fill character (default is a space)."),
    ("rstrip", "($self, chars=None, /)",
      "Return a copy of the string with trailing whitespace removed.\n\nIf chars is given and " ++
      "not None, remove characters in chars instead."),
    ("rpartition", "($self, sep, /)",
      "Partition the string into three parts using the given separator.\n\nThis will search for " ++
      "the separator in the string, starting at the end. If\nthe separator is found, returns a " ++
      "3-tuple containing the part before the\nseparator, the separator itself, and the part " ++
      "after it.\n\nIf the separator is not found, returns a 3-tuple containing two empty " ++
      "strings\nand the original string."),
    ("splitlines", "($self, /, keepends=False)",
      "Return a list of the lines in the string, breaking at line boundaries.\n\nLine breaks " ++
      "are not included in the resulting list unless keepends is given and\ntrue."),
    ("strip", "($self, chars=None, /)",
      "Return a copy of the string with leading and trailing whitespace removed.\n\nIf chars is " ++
      "given and not None, remove characters in chars instead."),
    ("swapcase", "($self, /)",
      "Convert uppercase characters to lowercase and lowercase characters to uppercase."),
    ("translate", "($self, table, /)",
      "Replace each character in the string using the given translation table.\n\n  table\n    " ++
      "Translation table, which must be a mapping of Unicode ordinals to\n    Unicode ordinals, " ++
      "strings, or None.\n\nThe table must implement lookup/indexing via __getitem__, for " ++
      "instance a\ndictionary or list.  If this operation raises LookupError, the character is\n" ++
      "left untouched.  Characters mapped to None are deleted."),
    ("upper", "($self, /)", "Return a copy of the string converted to uppercase."),
    ("startswith", "",
      "S.startswith(prefix[, start[, end]]) -> bool\n\nReturn True if S starts with the " ++
      "specified prefix, False otherwise.\nWith optional start, test S beginning at that " ++
      "position.\nWith optional end, stop comparing S at that position.\nprefix can also be a " ++
      "tuple of strings to try."),
    ("endswith", "",
      "S.endswith(suffix[, start[, end]]) -> bool\n\nReturn True if S ends with the specified " ++
      "suffix, False otherwise.\nWith optional start, test S beginning at that position.\nWith " ++
      "optional end, stop comparing S at that position.\nsuffix can also be a tuple of strings " ++
      "to try."),
    ("removeprefix", "($self, prefix, /)",
      "Return a str with the given prefix string removed if present.\n\nIf the string starts " ++
      "with the prefix string, return string[len(prefix):].\nOtherwise, return a copy of the " ++
      "original string."),
    ("removesuffix", "($self, suffix, /)",
      "Return a str with the given suffix string removed if present.\n\nIf the string ends with " ++
      "the suffix string and that suffix is not empty,\nreturn string[:-len(suffix)]. " ++
      "Otherwise, return a copy of the original\nstring."),
    ("isascii", "($self, /)",
      "Return True if all characters in the string are ASCII, False otherwise.\n\nASCII " ++
      "characters have code points in the range U+0000-U+007F.\nEmpty string is ASCII too."),
    ("islower", "($self, /)",
      "Return True if the string is a lowercase string, False otherwise.\n\nA string is " ++
      "lowercase if all cased characters in the string are lowercase and\nthere is at least one " ++
      "cased character in the string."),
    ("isupper", "($self, /)",
      "Return True if the string is an uppercase string, False otherwise.\n\nA string is " ++
      "uppercase if all cased characters in the string are uppercase and\nthere is at least one " ++
      "cased character in the string."),
    ("istitle", "($self, /)",
      "Return True if the string is a title-cased string, False otherwise.\n\nIn a title-cased " ++
      "string, upper- and title-case characters may only\nfollow uncased characters and " ++
      "lowercase characters only cased ones."),
    ("isspace", "($self, /)",
      "Return True if the string is a whitespace string, False otherwise.\n\nA string is " ++
      "whitespace if all characters in the string are whitespace and there\nis at least one " ++
      "character in the string."),
    ("isdecimal", "($self, /)",
      "Return True if the string is a decimal string, False otherwise.\n\nA string is a decimal " ++
      "string if all characters in the string are decimal and\nthere is at least one character " ++
      "in the string."),
    ("isdigit", "($self, /)",
      "Return True if the string is a digit string, False otherwise.\n\nA string is a digit " ++
      "string if all characters in the string are digits and there\nis at least one character " ++
      "in the string."),
    ("isnumeric", "($self, /)",
      "Return True if the string is a numeric string, False otherwise.\n\nA string is numeric " ++
      "if all characters in the string are numeric and there is at\nleast one character in the " ++
      "string."),
    ("isalpha", "($self, /)",
      "Return True if the string is an alphabetic string, False otherwise.\n\nA string is " ++
      "alphabetic if all characters in the string are alphabetic and there\nis at least one " ++
      "character in the string."),
    ("isalnum", "($self, /)",
      "Return True if the string is an alpha-numeric string, False otherwise.\n\nA string is " ++
      "alpha-numeric if all characters in the string are alpha-numeric and\nthere is at least " ++
      "one character in the string."),
    ("isidentifier", "($self, /)",
      "Return True if the string is a valid Python identifier, False otherwise.\n\nCall " ++
      "keyword.iskeyword(s) to test whether string s is a reserved identifier,\nsuch as \"def\" " ++
      "or \"class\"."),
    ("isprintable", "($self, /)",
      "Return True if the string is printable, False otherwise.\n\nA string is printable if all " ++
      "of its characters are considered printable in\nrepr() or if it is empty."),
    ("zfill", "($self, width, /)",
      "Pad a numeric string with zeros on the left, to fill a field of the given width.\n\nThe " ++
      "string is never truncated."),
    ("format", "",
      "S.format(*args, **kwargs) -> str\n\nReturn a formatted version of S, using substitutions " ++
      "from args and kwargs.\nThe substitutions are identified by braces ('\x7b' and '\x7d')."),
    ("format_map", "",
      "S.format_map(mapping) -> str\n\nReturn a formatted version of S, using substitutions " ++
      "from mapping.\nThe substitutions are identified by braces ('\x7b' and '\x7d')."),
    ("__format__", "($self, format_spec, /)",
      "Return a formatted version of the string as described by format_spec."),
    ("maketrans", "(x, y=<unrepresentable>, z=<unrepresentable>, /)",
      "Return a translation table usable for str.translate().\n\nIf there is only one argument, " ++
      "it must be a dictionary mapping Unicode\nordinals (integers) or characters to Unicode " ++
      "ordinals, strings or None.\nCharacter keys will be then converted to ordinals.\nIf there " ++
      "are two arguments, they must be strings of equal length, and\nin the resulting " ++
      "dictionary, each character in x will be mapped to the\ncharacter at the same position in " ++
      "y. If there is a third argument, it\nmust be a string, whose characters will be mapped " ++
      "to None in the result."),
    ("__sizeof__", "($self, /)", "Return the size of the string in memory, in bytes.")]
  | .number => [
    ("conjugate", "", "Returns self, the complex conjugate of any int."),
    ("bit_length", "($self, /)",
      "Number of bits necessary to represent self in binary.\n\n>>> bin(37)\n'0b100101'\n>>> " ++
      "(37).bit_length()\n6"),
    ("bit_count", "($self, /)",
      "Number of ones in the binary representation of the absolute value of self.\n\nAlso known " ++
      "as the population count.\n\n>>> bin(13)\n'0b1101'\n>>> (13).bit_count()\n3"),
    ("to_bytes", "($self, /, length=1, byteorder='big', *, signed=False)",
      "Return an array of bytes representing an integer.\n\n  length\n    Length of bytes " ++
      "object to use.  An OverflowError is raised if the\n    integer is not representable with " ++
      "the given number of bytes.  Default\n    is length 1.\n  byteorder\n    The byte order " ++
      "used to represent the integer.  If byteorder is 'big',\n    the most significant byte is " ++
      "at the beginning of the byte array.  If\n    byteorder is 'little', the most significant " ++
      "byte is at the end of the\n    byte array.  To request the native byte order of the host " ++
      "system, use\n    `sys.byteorder' as the byte order value.  Default is to use 'big'.\n  " ++
      "signed\n    Determines whether two's complement is used to represent the integer.\n    " ++
      "If signed is False and a negative integer is given, an OverflowError\n    is raised."),
    ("from_bytes", "($type, /, bytes, byteorder='big', *, signed=False)",
      "Return the integer represented by the given array of bytes.\n\n  bytes\n    Holds the " ++
      "array of bytes to convert.  The argument must either\n    support the buffer protocol or " ++
      "be an iterable object producing bytes.\n    Bytes and bytearray are examples of built-in " ++
      "objects that support the\n    buffer protocol.\n  byteorder\n    The byte order used to " ++
      "represent the integer.  If byteorder is 'big',\n    the most significant byte is at the " ++
      "beginning of the byte array.  If\n    byteorder is 'little', the most significant byte " ++
      "is at the end of the\n    byte array.  To request the native byte order of the host " ++
      "system, use\n    `sys.byteorder' as the byte order value.  Default is to use 'big'.\n  " ++
      "signed\n    Indicates whether two's complement is used to represent the integer."),
    ("as_integer_ratio", "($self, /)",
      "Return integer ratio.\n\nReturn a pair of integers, whose ratio is exactly equal to the " ++
      "original int\nand with a positive denominator.\n\n>>> (10).as_integer_ratio()\n(10, 1)\n" ++
      ">>> (-10).as_integer_ratio()\n(-10, 1)\n>>> (0).as_integer_ratio()\n(0, 1)"),
    ("__trunc__", "", "Truncating an Integral returns itself."),
    ("__floor__", "", "Flooring an Integral returns itself."),
    ("__ceil__", "", "Ceiling of an Integral returns itself."),
    ("__round__", "($self, ndigits=<unrepresentable>, /)",
      "Rounding an Integral returns itself.\n\nRounding with an ndigits argument also returns " ++
      "an integer."),
    ("__getnewargs__", "($self, /)", ""),
    ("__format__", "($self, format_spec, /)", ""),
    ("__sizeof__", "($self, /)", "Returns size in memory, in bytes."),
    ("real", "", "the real part of a complex number"),
    ("imag", "", "the imaginary part of a complex number"),
    ("numerator", "", "the numerator of a rational number in lowest terms"),
    ("denominator", "", "the denominator of a rational number in lowest terms")]
  | .object => [
    ("__reduce_ex__", "($self, protocol, /)", "Helper for pickle."),
    ("__reduce__", "($self, /)", "Helper for pickle."),
    ("__getstate__", "($self, /)", "Helper for pickle."),
    ("__subclasshook__", "",
      "Abstract classes can override this to customize issubclass().\n\nThis is invoked early " ++
      "on by abc.ABCMeta.__subclasscheck__().\nIt should return True, False or NotImplemented.  " ++
      "If it returns\nNotImplemented, the normal algorithm is used.  Otherwise, it\noverrides " ++
      "the normal algorithm (and the outcome is cached).\n"),
    ("__init_subclass__", "",
      "This method is called when a class is subclassed.\n\nThe default implementation does " ++
      "nothing. It may be\noverridden to extend subclasses.\n"),
    ("__format__", "($self, format_spec, /)", "Default object formatter."),
    ("__sizeof__", "($self, /)", "Size of object in memory, in bytes."),
    ("__dir__", "($self, /)", "Default dir() implementation."),
    ("__class__", "", "the object's class")]
  | .metaclass => [
    ("mro", "($self, /)", "Return a type's method resolution order."),
    ("__subclasses__", "($self, /)", "Return a list of immediate subclasses."),
    ("__prepare__", "",
      "__prepare__() -> dict\nused to create the namespace for the class statement"),
    ("__instancecheck__", "($self, instance, /)", "Check if an object is an instance."),
    ("__subclasscheck__", "($self, subclass, /)", "Check if a class is a subclass."),
    ("__dir__", "($self, /)", "Specialized __dir__ implementation for types."),
    ("__sizeof__", "($self, /)", "Return memory consumption of the type object.")]
  | .row => [
    ("__getnewargs__", "($self, /)", ""),
    ("index", "($self, value, start=0, stop=sys.maxsize, /)",
      "Return first index of value.\n\nRaises ValueError if the value is not present."),
    ("count", "($self, value, /)", "Return number of occurrences of value."),
    ("__class_getitem__", "", "See PEP 585")]
  | .listing => [
    ("get", "", "D.get(k[,d]) -> D[k] if k in D, else d.  d defaults to None."),
    ("keys", "", "D.keys() -> a set-like object providing a view on D's keys"),
    ("values", "", "D.values() -> an object providing a view on D's values"),
    ("items", "", "D.items() -> a set-like object providing a view on D's items"),
    ("copy", "", "D.copy() -> a shallow copy of D"),
    ("__class_getitem__", "", "See PEP 585"),
    ("__reversed__", "", "D.__reversed__() -> reverse iterator")]
  | .table => [
    ("__getitem__", "", "x.__getitem__(y) <==> x[y]"),
    ("__contains__", "($self, key, /)",
      "True if the dictionary has the specified key, else False."),
    ("__sizeof__", "", "D.__sizeof__() -> size of D in memory, in bytes"),
    ("get", "($self, key, default=None, /)",
      "Return the value for key if key is in the dictionary, else default."),
    ("setdefault", "($self, key, default=None, /)",
      "Insert key with a value of default if key is not in the dictionary.\n\nReturn the value " ++
      "for key if key is in the dictionary, else default."),
    ("pop", "($self, key, default=<unrepresentable>, /)",
      "D.pop(k[,d]) -> v, remove specified key and return the corresponding value.\n\nIf the " ++
      "key is not found, return the default if given; otherwise,\nraise a KeyError."),
    ("popitem", "($self, /)",
      "Remove and return a (key, value) pair as a 2-tuple.\n\nPairs are returned in LIFO " ++
      "(last-in, first-out) order.\nRaises KeyError if the dict is empty."),
    ("keys", "", "D.keys() -> a set-like object providing a view on D's keys"),
    ("items", "", "D.items() -> a set-like object providing a view on D's items"),
    ("values", "", "D.values() -> an object providing a view on D's values"),
    ("update", "",
      "D.update([E, ]**F) -> None.  Update D from dict/iterable E and F.\nIf E is present and " ++
      "has a .keys() method, then does:  for k in E: D[k] = E[k]\nIf E is present and lacks a " ++
      ".keys() method, then does:  for k, v in E: D[k] = v\nIn either case, this is followed " ++
      "by: for k in F:  D[k] = F[k]"),
    ("fromkeys", "($type, iterable, value=None, /)",
      "Create a new dictionary with keys from iterable and values set to value."),
    ("clear", "", "D.clear() -> None.  Remove all items from D."),
    ("copy", "", "D.copy() -> a shallow copy of D"),
    ("__reversed__", "($self, /)", "Return a reverse iterator over the dict keys."),
    ("__class_getitem__", "", "See PEP 585")]
  | .keyed => [
    ("__parameters__", "", "Type variables in the GenericAlias.")]
  | _ => []

def classManual : Class → String
  | .text =>
    "str(object='') -> str\nstr(bytes_or_buffer[, encoding[, errors]]) -> str\n\nCreate a new " ++
    "string object from the given object. If encoding or\nerrors is specified, then the object " ++
    "must expose a data buffer\nthat will be decoded using the given encoding and error " ++
    "handler.\nOtherwise, returns the result of object.__str__() (if defined)\nor " ++
    "repr(object).\nencoding defaults to sys.getdefaultencoding().\nerrors defaults to 'strict'."
  | .number =>
    "int([x]) -> integer\nint(x, base=10) -> integer\n\nConvert a number or string to an " ++
    "integer, or return 0 if no arguments\nare given.  If x is a number, return x.__int__().  " ++
    "For floating point\nnumbers, this truncates towards zero.\n\nIf x is not a number or if " ++
    "base is given, then x must be a string,\nbytes, or bytearray instance representing an " ++
    "integer literal in the\ngiven base.  The literal can be preceded by '+' or '-' and be " ++
    "surrounded\nby whitespace.  The base defaults to 10.  Valid bases are 0 and 2-36.\nBase 0 " ++
    "means to interpret the base from the string as an integer literal.\n>>> int('0b100', " ++
    "base=0)\n4"
  | .truth =>
    "bool(x) -> bool\n\nReturns True when the argument x is true, False otherwise.\nThe " ++
    "builtins True and False are the only two instances of the class bool.\nThe class bool is a " ++
    "subclass of the class int, and cannot be subclassed."
  | .object =>
    "The base class of the class hierarchy.\n\nWhen called, it accepts no arguments and returns " ++
    "a new featureless\ninstance that has no instance attributes and cannot be given any.\n"
  | .metaclass =>
    "type(object) -> the object's type\ntype(name, bases, dict, **kwds) -> a new type"
  | .row =>
    "Built-in immutable sequence.\n\nIf no argument is given, the constructor returns an empty " ++
    "tuple.\nIf iterable is specified the tuple is initialized from iterable's items.\n\nIf the " ++
    "argument is a tuple, the return value is the same object."
  | .staticMethod =>
    "staticmethod(function) -> method\n\nConvert a function to be a static method.\n\nA static " ++
    "method does not receive an implicit first argument.\nTo declare a static method, use this " ++
    "idiom:\n\n     class C:\n         @staticmethod\n         def f(arg1, arg2, " ++
    "argN):\n             ...\n\nIt can be called either on the class (e.g. C.f()) or on an " ++
    "instance\n(e.g. C().f()). Both the class and the instance are ignored, and\nneither is " ++
    "passed implicitly as the first argument to the method.\n\nStatic methods in Python are " ++
    "similar to those found in Java or C++.\nFor a more advanced concept, see the classmethod " ++
    "builtin."
  | .table =>
    "dict() -> new empty dictionary\ndict(mapping) -> new dictionary initialized from a mapping " ++
    "object's\n    (key, value) pairs\ndict(iterable) -> new dictionary initialized as if " ++
    "via:\n    d = \x7b\x7d\n    for k, v in iterable:\n        d[k] = v\ndict(**kwargs) -> new " ++
    "dictionary initialized with the name=value pairs\n    in the keyword argument list.  For " ++
    "example:  dict(one=1, two=2)"
  | .keyed =>
    "Represent a PEP 585 generic type\n\nE.g. for t = list[int], t.__origin__ is list and " ++
    "t.__args__ is (int,)."
  | _ => ""

/-- The signature of a class itself, which is empty for most. -/
def classSignature : Class → String
  | .object => "()"
  | .row => "(iterable=(), /)"
  | _ => ""

def Feature.manual (f : Feature) : String × String :=
  let found := match f.form with
    | .maker => some ("($type, *args, **kwargs)",
      "Create and return a new object.  See help(type) for accurate signature.")
    | .operator => operatorManual.lookup f.name
    | _ => (memberManual f.home).lookup f.name
  found.getD ("", "")

end SignatureLayers.Message
